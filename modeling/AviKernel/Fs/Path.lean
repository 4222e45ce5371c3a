import AviKernel.Utils.Vector

/-!
# Paths

A path is parsed once from its string into the slash separated parts.  Strings
are the characters before the terminating zero.
-/

namespace AviKernel

structure Path where
  folder : Bool
  parts : List (List Char)
deriving DecidableEq, Repr

namespace Path

def isspace (c : Char) : Bool :=
  c = ' ' || c = '\n' || c = '\t' || c = '\x0b' || c = '\x0c' || c = '\r'

def emptyOrWhitespaces (s : List Char) : Bool := s.all isspace

/-- The parts of the characters that follow the first slash, when `s` is the
part read so far. -/
def fillVector (s : List Char) : List Char → List (List Char)
  | [] => if s = [] then [] else [s]
  | c :: str => if c = '/' then s :: fillVector [] str else fillVector (s ++ [c]) str

/-- The string with the slashes that the constructor adds. -/
def absolute (s : List Char) : List Char :=
  let s := if emptyOrWhitespaces s then s ++ ['/'] else s
  if s.head? ≠ some '/' then '/' :: s else s

def ofString (s : List Char) : Path where
  folder := (absolute s).getLast? = some '/'
  parts := fillVector [] (absolute s).tail

variable (path : Path)

def isFolder : Bool := path.folder

def getDepth : ℤ := if path.isFolder then path.parts.length else path.parts.length - 1

def isRoot : Bool := path.getDepth = 0 && path.isFolder

def getPart (i : ℤ) : Option (List Char) := Vector.get path.parts i

def removePart (index : ℤ) : Option Path :=
  (Vector.remove path.parts index).map fun parts => { path with parts := parts }

/-- The parts from some part on, each followed by a slash, except for the last
part of a file. -/
def joinParts (folder : Bool) : List (List Char) → List Char
  | [] => []
  | [part] => part ++ if folder then ['/'] else []
  | part :: rest => part ++ '/' :: joinParts folder rest

def toString : List Char := '/' :: joinParts path.isFolder path.parts

/-- Remove the first part, as many times as given. -/
def removeParts (path : Path) : ℕ → Option Path
  | 0 => some path
  | n + 1 => (path.removePart 0).bind fun path => path.removeParts n

variable {path}

theorem getDepth_of_folder (h : path.folder = true) : path.getDepth = path.parts.length := by
  simp [getDepth, isFolder, h]

theorem getDepth_le : path.getDepth ≤ path.parts.length := by
  unfold getDepth
  split <;> omega

theorem removeParts_eq {n : ℕ} (h : n ≤ path.parts.length) :
    path.removeParts n = some { path with parts := path.parts.drop n } := by
  induction n generalizing path with
  | zero => rfl
  | succ n ih =>
      obtain ⟨folder, parts⟩ := path
      cases parts with
      | nil => simp at h
      | cons a parts =>
          have hremove : removePart ⟨folder, a :: parts⟩ 0 = some ⟨folder, parts⟩ := by
            simp [removePart]
          rw [removeParts, hremove, Option.bind_some]
          have hlen : n ≤ (Path.mk folder parts).parts.length := Nat.le_of_succ_le_succ h
          simpa using ih hlen

end Path

end AviKernel
