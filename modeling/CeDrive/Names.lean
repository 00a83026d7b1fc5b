import Mathlib.Data.String.Basic

/-!
# Name validation

`crates/ce-drive-core/src/names.rs`. A drive name is one path component. `validateName`
checks it before every structural mutation of the drive API; a remote move is not checked.

`str::trim` strips the code points of the Unicode property `White_Space`, which is written
out as `isWhiteSpace`.
-/

namespace CeDrive

/-- The longest component, in UTF-8 bytes. -/
def MAX_NAME_BYTES : ℕ := 255

/-- Why a name was rejected. -/
inductive NameError
  | empty
  | dotComponent
  | separator (c : Char)
  | control (c : Char)
  | tooLong (bytes : ℕ)
  deriving DecidableEq, Repr

/-- A number in upper-case hexadecimal, padded to `width` digits. -/
def upperHex (width n : ℕ) : String :=
  String.ofList (((Nat.toDigits 16 n).map Char.toUpper).leftpad width '0')

/-- `Display` of a name error. -/
def NameError.message : NameError → String
  | empty => "name is empty"
  | dotComponent => "name '.' or '..' is not a valid file name"
  | separator c => "name contains a path separator '" ++ c.toString ++ "'"
  | control c => "name contains a control character U+" ++ upperHex 4 c.toNat
  | tooLong bytes =>
    "name is " ++ toString bytes ++ " bytes, exceeds the " ++ toString MAX_NAME_BYTES ++
      "-byte limit"

/-- `char::is_whitespace`. -/
def isWhiteSpace (c : Char) : Bool :=
  (0x9 ≤ c.toNat && c.toNat ≤ 0xD) || c.toNat == 0x20 || c.toNat == 0x85 || c.toNat == 0xA0 ||
    c.toNat == 0x1680 || (0x2000 ≤ c.toNat && c.toNat ≤ 0x200A) || c.toNat == 0x2028 ||
    c.toNat == 0x2029 || c.toNat == 0x202F || c.toNat == 0x205F || c.toNat == 0x3000

/-- The error of one character, if it may not stand in a name. -/
def charError (c : Char) : Option NameError :=
  if c = '/' ∨ c = '\\' then some (.separator c)
  else if c.toNat < 0x20 then some (.control c)
  else none

/-- Validate one name component. -/
def validateName (name : String) : Except NameError Unit :=
  if name.toList.all isWhiteSpace then .error .empty
  else if name = "." ∨ name = ".." then .error .dotComponent
  else match name.toList.findSome? charError with
    | some e => .error e
    | none => if name.utf8ByteSize > MAX_NAME_BYTES then .error (.tooLong name.utf8ByteSize) else .ok ()

/-- `validateName` with the error as the drive API reports it. -/
def checkName (name : String) : Except String Unit :=
  match validateName name with
  | .ok () => .ok ()
  | .error e => .error ("invalid name '" ++ name ++ "': " ++ e.message)

theorem checkName_ok_iff {name : String} : checkName name = .ok () ↔ validateName name = .ok () := by
  unfold checkName
  cases validateName name <;> simp

/-- A valid name is not empty and contains no slash. -/
theorem slash_not_mem_of_validateName {name : String} (h : validateName name = .ok ()) :
    name ≠ "" ∧ '/' ∉ name.toList := by
  unfold validateName at h
  split at h
  · cases h
  rename_i hws
  split at h
  · cases h
  refine ⟨?_, fun hmem => ?_⟩
  · rintro rfl
    exact hws rfl
  · have hsome : (name.toList.findSome? charError).isSome :=
      List.findSome?_isSome_iff.2 ⟨'/', hmem, rfl⟩
    cases hf : name.toList.findSome? charError with
    | none => simp [hf] at hsome
    | some e => simp [hf] at h

example : validateName "report.pdf" = .ok () ∧ validateName "a/b" = .error (.separator '/') ∧
    validateName "\t" = .error .empty ∧ validateName "a\tb" = .error (.control '\t') := by
  decide

end CeDrive
