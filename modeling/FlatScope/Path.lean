import FlatScope.Text.Encoding

/-!
# Paths

The path of a file is shown without empty and `.` components, and `.` if nothing is left. Components
`..` stay, and so do one or two slashes at the start; more than two count as one.

A path names a file by its bytes. They are the encoding of its text, in which a byte that belongs to
no character is written as a surrogate; with other surrogates, or with a NUL, no file can be named.
-/

namespace FlatScope.Path

/-- The components of a path: the texts between its slashes. -/
def components : Text → List Text
  | [] => [[]]
  | c :: r =>
    if c = Text.code '/' then [] :: components r
    else match components r with
      | [] => [[c]]
      | first :: rest => (c :: first) :: rest

/-- The slashes that a path begins with, as they are shown. -/
def root (t : Text) : Text :=
  match (t.takeWhile (· = Text.code '/')).length with
  | 0 => ""
  | 2 => "//"
  | _ => "/"

/-- A path as it is shown. -/
def normalize (t : Text) : Text :=
  let parts := (components t).filter fun c => c ≠ [] ∧ c ≠ [Text.code '.']
  match root t ++ Text.join "/" parts with
  | [] => "."
  | path => path

/-- A surrogate that stands for a byte of a path. -/
def isByte (c : CodePoint) : Bool := 0xDC80 ≤ c && c ≤ 0xDCFF

/-- How many bytes there are in a path that names a file. -/
def byteSize (path : Text) : Nat :=
  path.foldl (fun n c => n +
    if c < 0x80 || isByte c then 1 else if c < 0x800 then 2 else if c < 0x10000 then 3 else 4) 0

/-- Why a path names no file. -/
inductive Fault where
  | unencodable (u : Text.Unencodable)
  | nul
  deriving DecidableEq, Repr

/-- The wording of a fault. -/
def Fault.message : Fault → Text
  | .unencodable u => u.message
  | .nul => "embedded null byte"

/-- Why a path names no file, if it does not. -/
def fault? (path : Text) : Option Fault :=
  match path.unencodableExcept? isByte with
  | some u => some (.unencodable u)
  | none => if path.contains 0 then some .nul else none

end FlatScope.Path
