import PagedWords.Store.Basic
import PagedWords.Paged.Search

/-! # Searches and filters of stores; findings in a window are told in its positions -/
namespace PagedWords.Store
variable {k : Width}

def search (how : Strategy) : Store k → Word k → Nat → Nat → Except Fault Finding
  | slice ws, key, start, stop => Search.search how ws key start stop
  | page p, key, start, stop => Search.search how p.words key start stop
  | paged a, key, start, stop => a.search how key start stop
  | window base low high, key, start, stop => do
      let (start, stop) ← windowSpan low high start stop
      (← base.search how key start stop).shiftBack low
  | elementwise base, key, start, stop => Search.search how (elementwise base) key start stop

def searchRecords (how : Strategy) :
    Store k → Nat → Word k → Nat → Nat → Except Fault (Except Error Finding)
  | slice ws, stride, key, start, stop => Search.searchRecords how ws stride key start stop
  | page p, stride, key, start, stop => Search.searchRecords how p.words stride key start stop
  | paged a, stride, key, start, stop => a.searchRecords how stride key start stop
  | window base low high, stride, key, start, stop =>
      match windowCheck low high start stop with
      | .error e => .ok (.error e)
      | .ok () => do
          match ← base.searchRecords how stride key (low + start) (low + stop) with
          | .error e => return .error e
          | .ok r => .ok <$> r.shiftBack low
  | elementwise base, stride, key, start, stop => Search.searchRecords how (elementwise base) stride key start stop

def bound (how : Strategy) : Store k → Word k → Nat → Nat → Except Fault Nat
  | slice ws, key, start, stop => Search.bound how ws key start stop
  | page p, key, start, stop => Search.bound how p.words key start stop
  | paged a, key, start, stop => a.bound how key start stop
  | window base low high, key, start, stop => do
      let (start, stop) ← windowSpan low high start stop
      subPosition (← base.bound how key start stop) low
  | elementwise base, key, start, stop => Search.bound how (elementwise base) key start stop

def boundRecords : Store k → Nat → Word k → Nat → Nat → Except Fault (Except Error Nat)
  | slice ws, stride, key, start, stop => Search.boundRecords ws stride key start stop
  | page p, stride, key, start, stop => Search.boundRecords p.words stride key start stop
  | paged a, stride, key, start, stop => a.boundRecords stride key start stop
  | window base low high, stride, key, start, stop =>
      match windowCheck low high start stop with
      | .error e => .ok (.error e)
      | .ok () => do
          match ← base.boundRecords stride key (low + start) (low + stop) with
          | .error e => return .error e
          | .ok pos => .ok <$> subPosition pos low
  | elementwise base, stride, key, start, stop => Search.boundRecords (elementwise base) stride key start stop

def filter (how : Membership) (boundary : Word k) :
    Store k → Nat → Nat → Candidates k → Except Fault (Candidates k)
  | slice ws, start, stop, c => Filter.filter ws how boundary start stop c
  | page p, start, stop, c => Filter.filter p.words how boundary start stop c
  | paged a, start, stop, c => a.filter how boundary start stop c
  | window base low high, start, stop, c => do
      let (start, stop) ← windowSpan low high start stop
      base.filter how boundary start stop c
  | elementwise base, start, stop, c => Filter.filter (elementwise base) how boundary start stop c

def filterRecords (how : Membership) (stride : Nat) (boundary : Word k) :
    Store k → Nat → Nat → Candidates k → Except Fault (Except Error (Candidates k))
  | slice ws, start, stop, c => Filter.filterRecords ws how stride boundary start stop c
  | page p, start, stop, c => Filter.filterRecords p.words how stride boundary start stop c
  | paged a, start, stop, c => a.filterRecords how stride boundary start stop c
  | window base low high, start, stop, c =>
      match windowCheck low high start stop with
      | .error e => .ok (.error e)
      | .ok () => base.filterRecords how stride boundary (low + start) (low + stop) c
  | elementwise base, start, stop, c => Filter.filterRecords (elementwise base) how stride boundary start stop c

end PagedWords.Store
