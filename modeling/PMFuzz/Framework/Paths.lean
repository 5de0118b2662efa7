import PMFuzz.Framework.Dir
import PMFuzz.Framework.Glob
import PMFuzz.Framework.Normpath

/-!
# Resolving paths

The directories that names lead to, with `.`, `..` and links, and files in
them. A path is resolved name by name (`resolve`, `locate`).
-/

namespace PMFuzz.Paths

open Str

variable {D : Type}

structure Tree (D : Type) where
  root : D
  /-- The current directory. -/
  cwd : D
  /-- The directory that a name leads to. -/
  entry : D → Str → Option D

namespace Tree

variable (t : Tree D) {p n : Str}

/-- One name of a path; slashes may be repeated. -/
def step (d : D) (n : Str) : Option D := if n = [] then some d else t.entry d n

def start (p : Str) : D := if p.head? = some '/' then t.root else t.cwd

/-- The directory that a path names. -/
def resolve (p : Str) : Option D := if p = [] then none else (split p '/').foldlM t.step (t.start p)

/-- The directory of a file, and its name there. -/
def locate (p : Str) : Option (D × Str) :=
  let parts := split p '/'
  (parts.dropLast.foldlM t.step (t.start p)).map fun d => (d, parts.getLastD [])

theorem split_child (hn : '/' ∉ n) : split (p ++ '/' :: n) '/' = split p '/' ++ [n] := by
  rw [split, List.splitOn_append_cons_self, List.splitOn_eq_singleton hn]
  rfl

theorem start_child (hp : p ≠ []) : t.start (p ++ '/' :: n) = t.start p := by
  obtain ⟨c, p, rfl⟩ := List.exists_cons_of_ne_nil hp
  rfl

theorem resolve_child (hp : p ≠ []) (hn : '/' ∉ n) : t.resolve (p ++ '/' :: n) = (t.resolve p).bind (t.step · n) := by
  rw [resolve, resolve, if_neg (by simp), if_neg hp, split_child hn, t.start_child hp, List.foldlM_append]
  cases (split p '/').foldlM t.step (t.start p) with
  | none => rfl
  | some d =>
    show (t.step d n >>= fun d => some d) = t.step d n
    cases t.step d n <;> rfl

theorem locate_child (hp : p ≠ []) (hn : '/' ∉ n) : t.locate (p ++ '/' :: n) = (t.resolve p).map fun d => (d, n) := by
  rw [locate, resolve, if_neg hp, split_child hn, t.start_child hp, List.dropLast_concat, List.getLastD_concat]

theorem slash_notMem_locate {d : D} (h : t.locate p = some (d, n)) : '/' ∉ n := by
  obtain ⟨_, -, hn⟩ := Option.map_eq_some_iff.mp h
  have hlast : n = (split p '/').getLastD [] := (congrArg Prod.snd hn).symm
  rw [hlast, List.getLastD_eq_getLast?]
  cases hparts : (split p '/').getLast? with
  | none => exact List.not_mem_nil
  | some part => exact Glob.notMem_of_mem_split part (List.mem_of_getLast? hparts)

end Tree

/-- The file that a path names. -/
def find (t : Tree D) (files : D → Dir) (p : Str) : Option Bytes :=
  (t.locate p).bind fun f => (files f.1).lookup f.2

end PMFuzz.Paths
