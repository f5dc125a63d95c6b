import Mathlib.Data.List.Basic
import Mathlib.Tactic.Common

/-!
# Paths of a Unix file system

A path is a list of bytes.  `components` reads it the way a path is resolved: the path
is cut at its separators, empty pieces and inner `.` pieces are nothing, and a leading
separator or a leading `.` is a component of its own.  `join` puts a second path behind
a directory.

A `FileName` is a piece that is one ordinary component wherever it stands.  The result
is `components_join`: joining a file name to a directory, whatever the directory is,
adds exactly that component.  So the path is a direct child of the directory
(`IsChild`), and two children that resolve alike have one file name.
-/

namespace UnixPath

/-- A path. -/
abbrev Path := List UInt8

/-- The byte `/`. -/
def separator : UInt8 := 47

/-- The piece `.`. -/
def dot : List UInt8 := [46]

/-- The piece `..`. -/
def dotDot : List UInt8 := [46, 46]

/-- One step of the resolution of a path. -/
inductive Component where
  | rootDir
  | curDir
  | parentDir
  | normal (name : List UInt8)
  deriving DecidableEq, Repr

/-- What a piece between separators contributes. -/
def pieceComponent (piece : List UInt8) : Option Component :=
  if piece = [] ∨ piece = dot then none
  else if piece = dotDot then some .parentDir
  else some (.normal piece)

/-- What the start of a path contributes besides its pieces. -/
def leading (path : Path) : List Component :=
  if path.head? = some separator then [.rootDir]
  else if (path.splitOn separator).head? = some dot then [.curDir]
  else []

/-- The components of a path. -/
def components (path : Path) : List Component :=
  leading path ++ (path.splitOn separator).filterMap pieceComponent

/-- A path behind a directory.  A path that starts at the root replaces the directory,
and a separator stands between the two unless the directory is empty or ends with one. -/
def join (dir path : Path) : Path :=
  if path.head? = some separator then path
  else if dir = [] ∨ dir.getLast? = some separator then dir ++ path
  else dir ++ separator :: path

/-- Bytes appended to a joined path are appended to what was joined. -/
theorem join_append (dir : Path) {path : Path} (suffix : List UInt8) (hpath : path ≠ []) :
    join dir path ++ suffix = join dir (path ++ suffix) := by
  rw [join, join, List.head?_append_of_ne_nil _ hpath]
  split_ifs
  · rfl
  · rw [List.append_assoc]
  · rw [List.append_assoc, List.cons_append]

/-- A piece that is one ordinary component. -/
structure FileName where
  bytes : List UInt8
  ne_nil : bytes ≠ []
  ne_dot : bytes ≠ dot
  ne_dotDot : bytes ≠ dotDot
  noSeparator : separator ∉ bytes

namespace FileName

variable (file : FileName)

theorem head?_ne : file.bytes.head? ≠ some separator := by
  intro h
  exact file.noSeparator (List.mem_of_mem_head? h)

theorem splitOn_bytes : file.bytes.splitOn separator = [file.bytes] :=
  List.splitOn_eq_singleton file.noSeparator

theorem pieceComponent_bytes : pieceComponent file.bytes = some (.normal file.bytes) := by
  rw [pieceComponent, if_neg (not_or.mpr ⟨file.ne_nil, file.ne_dot⟩), if_neg file.ne_dotDot]

/-- A file name alone is its one component. -/
theorem components_bytes : components file.bytes = [.normal file.bytes] := by
  have hleading : leading file.bytes = [] := by
    rw [leading, if_neg file.head?_ne, splitOn_bytes, if_neg]
    intro h
    exact file.ne_dot (Option.some.inj h)
  rw [components, hleading, splitOn_bytes]
  simp [pieceComponent_bytes]

end FileName

/-! ## Joining a file name to a directory -/

/-- What stands behind a separator does not change the start of the path. -/
theorem leading_append_separator (dir rest : Path) (hdir : dir ≠ []) :
    leading (dir ++ separator :: rest) = leading dir := by
  have hhead : (dir ++ separator :: rest).head? = dir.head? := List.head?_append_of_ne_nil _ hdir
  have hpiece : ((dir ++ separator :: rest).splitOn separator).head? =
      (dir.splitOn separator).head? := by
    rw [List.splitOn_append_cons_self]
    exact List.head?_append_of_ne_nil _ (List.splitOn_ne_nil _ _)
  rw [leading, leading, hhead, hpiece]

/-- A file name behind a directory that is not empty and a separator. -/
theorem components_append_separator (dir : Path) (file : FileName) (hdir : dir ≠ []) :
    components (dir ++ separator :: file.bytes) = components dir ++ [.normal file.bytes] := by
  rw [components, leading_append_separator dir _ hdir, List.splitOn_append_cons_self,
    file.splitOn_bytes, List.filterMap_append, components, List.append_assoc]
  simp [file.pieceComponent_bytes]

/-- A separator at the end of a directory contributes nothing more. -/
theorem components_trailing (dir : Path) (hdir : dir ≠ []) :
    components (dir ++ [separator]) = components dir := by
  rw [components, leading_append_separator dir [] hdir, List.splitOn_append_cons_self,
    List.filterMap_append, components]
  simp [pieceComponent]

/-- A file name behind the root. -/
theorem components_root (file : FileName) :
    components (separator :: file.bytes) = components [separator] ++ [.normal file.bytes] := by
  have hsplit : (separator :: file.bytes).splitOn separator = [[], file.bytes] := by
    have h := List.splitOn_append_cons_self (a := separator) [] file.bytes
    rwa [file.splitOn_bytes] at h
  have hroot : [separator].splitOn separator = [[], []] := by rfl
  have hleading : leading (separator :: file.bytes) = leading [separator] := rfl
  have hempty : pieceComponent [] = none := rfl
  rw [components, components, hsplit, hroot, hleading, List.append_assoc]
  simp [hempty, file.pieceComponent_bytes]

/-- A file name joined to a directory is one component more, whatever the directory is. -/
theorem components_join (dir : Path) (file : FileName) :
    components (join dir file.bytes) = components dir ++ [.normal file.bytes] := by
  rw [join, if_neg file.head?_ne]
  by_cases hempty : dir = []
  · subst hempty
    rw [if_pos (Or.inl rfl), List.nil_append, file.components_bytes]
    rfl
  · by_cases hlast : dir.getLast? = some separator
    · rw [if_pos (Or.inr hlast)]
      obtain ⟨start, rfl⟩ := List.getLast?_eq_some_iff.mp hlast
      rw [List.append_assoc, List.singleton_append]
      by_cases hstart : start = []
      · subst hstart
        exact components_root file
      · rw [components_append_separator start file hstart, components_trailing start hstart]
    · rw [if_neg (not_or.mpr ⟨hempty, hlast⟩)]
      exact components_append_separator dir file hempty

/-- A path is a direct child of a directory: one ordinary component behind it. -/
def IsChild (dir path : Path) (file : FileName) : Prop :=
  components path = components dir ++ [.normal file.bytes]

/-- Two children of a directory that resolve alike have one file name. -/
theorem IsChild.bytes_eq {dir path other : Path} {file file' : FileName}
    (h : IsChild dir path file) (h' : IsChild dir other file')
    (heq : components path = components other) : file.bytes = file'.bytes := by
  rw [h, h', List.append_cancel_left_eq] at heq
  simpa using heq

end UnixPath
