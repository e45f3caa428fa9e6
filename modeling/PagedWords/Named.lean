/-! # Values by name, in the order in which the names were first put -/
namespace PagedWords

abbrev Named (α : Type) := List (String × α)

namespace Named
variable {α : Type}

def find? (xs : Named α) (name : String) : Option α := xs.lookup name

def put (name : String) (x : α) : Named α → Named α
  | [] => [(name, x)]
  | (n, old) :: rest => if n = name then (name, x) :: rest else (n, old) :: put name x rest

def erase (name : String) (xs : Named α) : Named α := xs.filter (fun p => p.1 ≠ name)

def mapValues (f : α → α) (xs : Named α) : Named α := xs.map (fun p => (p.1, f p.2))

theorem find?_put_self (name : String) (x : α) (xs : Named α) : (put name x xs).find? name = some x := by
  unfold find?
  induction xs with
  | nil => simp [put]
  | cons p rest ih =>
    obtain ⟨n, old⟩ := p
    by_cases h : n = name
    · simp [put, h]
    · have hb : (name == n) = false := beq_false_of_ne (Ne.symm h)
      simp [put, h, List.lookup_cons, hb, ih]

theorem find?_put_of_ne {name other : String} (x : α) (xs : Named α) (h : other ≠ name) :
    (put name x xs).find? other = xs.find? other := by
  unfold find?
  induction xs with
  | nil => simp [put, List.lookup_cons, beq_false_of_ne h]
  | cons p rest ih =>
    obtain ⟨n, old⟩ := p
    by_cases hn : n = name
    · subst hn
      simp [put, List.lookup_cons, beq_false_of_ne h]
    · simp only [put, hn, if_false, List.lookup_cons, ih]

end Named
end PagedWords
