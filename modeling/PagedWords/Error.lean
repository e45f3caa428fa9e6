/-! # Errors of array operations and their texts -/
namespace PagedWords

/-- Why an operation on a file, a directory or the system's memory failed. -/
inductive IoCause
  | notFound | notADirectory | isADirectory | nameTooLong | nulInName
  | unexpectedEnd | invalidInput | invalidData | outOfMemory | offsetTooLarge
  | other (text : String)
deriving DecidableEq, Repr

/-- What an operation reports when it refuses its arguments or its storage. -/
inductive Error
  | invalidArgument (name message : String)
  | outOfBounds (pos size page offset : Nat)
  | notSorted (start stop : Nat)
  | strideMismatch (length stride : Nat)
  | destinationTooSmall (required available : Nat)
  | readOnly (context : String)
  | io (context : String) (cause : IoCause)
deriving DecidableEq, Repr

def IoCause.text : IoCause → String
  | .notFound => "No such file or directory (os error 2)"
  | .notADirectory => "Not a directory (os error 20)"
  | .isADirectory => "Is a directory (os error 21)"
  | .nameTooLong => "File name too long (os error 36)"
  | .nulInName => "file name contained an unexpected NUL byte"
  | .unexpectedEnd => "failed to fill whole buffer"
  | .invalidInput => "Invalid argument (os error 22)"
  | .invalidData => "memory map length overflows isize"
  | .outOfMemory => "Cannot allocate memory (os error 12)"
  | .offsetTooLarge => "Value too large for defined data type (os error 75)"
  | .other text => text

namespace Error

/-- A failure of the file system is closed by a quote of its own. -/
def message : Error → String
  | invalidArgument name message => s!"invalid argument {name}: {message}"
  | outOfBounds pos size page offset =>
      s!"index out of bounds for {pos} (size {size}) => ({page}:{offset})"
  | notSorted start stop => s!"range {start}..{stop} is not sorted"
  | strideMismatch length stride =>
      s!"range length {length} is not a multiple of the record stride {stride}"
  | destinationTooSmall required available =>
      s!"destination buffer is too small: {required} words required, {available} available"
  | readOnly context => s!"write to read-only storage: {context}"
  | io context cause => s!"IO error for '{context}': {cause.text}'"

def isIo : Error → Bool
  | io .. => true
  | _ => false

end Error
end PagedWords
