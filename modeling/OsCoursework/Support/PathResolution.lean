import Mathlib.Data.List.Infix
import OsCoursework.Support.Pieces

/-!
# Resolving a path

A directory is given by the names on the way from the root to it, and a path by
the parts between its separators.  The empty part and the single dot stay where
they are, two dots go to the parent, and any other part goes down.  Links are not
followed.

A path without two dots in a row stays below the directory where it starts.
-/

namespace OsCoursework.PathResolution

variable {α : Type*} {sep : α}

/-- A word without the separator lies on one side of it. -/
theorem infix_or_infix_of_append_cons {word front rest : List α} (hword : sep ∉ word)
    (h : word <:+: front ++ sep :: rest) : word <:+: front ∨ word <:+: rest := by
  obtain ⟨before, after, heq⟩ := h
  rw [List.append_assoc] at heq
  rcases List.append_eq_append_iff.mp heq with ⟨mid, hfront, hmid⟩ | ⟨mid, -, hmid⟩
  · -- The word starts in front of the separator, so it ends there.
    rcases List.append_eq_append_iff.mp hmid with ⟨last, hlast, -⟩ | ⟨last, hlast, hrest⟩
    · exact Or.inl ⟨before, last, by rw [hfront, hlast, List.append_assoc]⟩
    · cases last with
      | nil =>
          rw [List.append_nil] at hlast
          exact Or.inl ⟨before, [], by rw [hfront, hlast, List.append_nil]⟩
      | cons x last =>
          obtain ⟨rfl, -⟩ := List.cons.inj hrest
          rw [hlast] at hword
          exact absurd (List.mem_append_right _ List.mem_cons_self) hword
  · cases mid with
    | nil =>
        cases word with
        | nil => exact Or.inl List.nil_infix
        | cons x word =>
            obtain ⟨rfl, -⟩ := List.cons.inj hmid
            exact absurd List.mem_cons_self hword
    | cons x mid =>
        obtain ⟨-, hrest⟩ := List.cons.inj hmid
        exact Or.inr ⟨mid, after, by rw [List.append_assoc]; exact hrest.symm⟩

variable [DecidableEq α] (sep) (dot : α)

/-- Follow one part of a path. -/
def follow (dir : List (List α)) (part : List α) : List (List α) :=
  if part = [] ∨ part = [dot] then dir
  else if part = [dot, dot] then dir.dropLast
  else dir ++ [part]

/-- Follow the parts of a path, first to last. -/
def followAll (dir : List (List α)) (parts : List (List α)) : List (List α) :=
  parts.foldl (follow dot) dir

/-- What a path denotes in the working directory `cwd`; a path that starts with the
separator starts at the root. -/
def resolve (cwd : List (List α)) (path : List α) : List (List α) :=
  followAll dot (if path.head? = some sep then [] else cwd) (path.splitOn sep)

variable {sep dot}

theorem followAll_append (dir : List (List α)) (parts rest : List (List α)) :
    followAll dot dir (parts ++ rest) =
      followAll dot (followAll dot dir parts) rest :=
  List.foldl_append

/-- Only two dots leave a directory. -/
theorem prefix_follow (dir : List (List α)) {part : List α} (h : part ≠ [dot, dot]) :
    dir <+: follow dot dir part := by
  rw [follow]
  split
  · exact List.prefix_rfl
  · exact List.prefix_append dir [part]

theorem prefix_followAll (dir : List (List α)) {parts : List (List α)}
    (h : ∀ part ∈ parts, part ≠ [dot, dot]) : dir <+: followAll dot dir parts := by
  induction parts generalizing dir with
  | nil => exact List.prefix_rfl
  | cons part parts ih =>
      have hfirst := prefix_follow dir (h part List.mem_cons_self)
      have hrest := ih (follow dot dir part) fun part hpart =>
        h part (List.mem_cons_of_mem _ hpart)
      exact hfirst.trans hrest

/-- The first part of a path says where the rest of it starts. -/
theorem resolve_append_cons (cwd : List (List α)) {front : List α}
    (hne : front ≠ []) (rest : List α) :
    resolve sep dot cwd (front ++ sep :: rest) =
      followAll dot (resolve sep dot cwd front) (rest.splitOn sep) := by
  rw [resolve, resolve, List.splitOn_append_cons_self, followAll_append,
    List.head?_append_of_ne_nil _ hne]

theorem infix_of_mem_splitOn {part path : List α} (h : part ∈ path.splitOn sep) :
    part <:+: path := by
  induction path using Pieces.induction (d := sep) with
  | single path hmem =>
      rw [List.splitOn_eq_singleton hmem] at h
      rw [List.mem_singleton.mp h]
  | cons front rest hfront ih =>
      rw [List.splitOn_append_cons_self_of_not_mem hfront] at h
      have hrest : rest <:+: front ++ sep :: rest :=
        ((List.suffix_cons sep rest).trans (List.suffix_append front _)).isInfix
      rcases List.mem_cons.mp h with rfl | hpart
      · exact (List.prefix_append part _).isInfix
      · exact (ih hpart).trans hrest

/-- A path with a first part stays below it if two dots never follow each other
behind it. -/
theorem prefix_resolve (cwd : List (List α)) {front rest : List α} (hne : front ≠ [])
    (hdots : ¬ [dot, dot] <:+: rest) :
    resolve sep dot cwd front <+: resolve sep dot cwd (front ++ sep :: rest) := by
  rw [resolve_append_cons cwd hne]
  apply prefix_followAll
  rintro part hpart rfl
  exact hdots (infix_of_mem_splitOn hpart)

end OsCoursework.PathResolution
