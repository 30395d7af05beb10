import Mathlib.Data.List.Infix
import Mathlib.Logic.Relation
import Mathlib.Tactic.Common

/-!
# Lexical Paths

Paths as lists of segments over any type of names, and what they mean without a look at a file system. From
the root a path is rewritten: a `.` is dropped, a name and the `..` behind it are dropped together, and a `..`
at the root is dropped. A relative path climbs some levels and then goes down some names.

## Main results

* `resolves_iff`: the rewriting has one result, which a stack computes.
* `walk_eq`: where a relative path leads to from any directory.
* `climb_eq_zero_iff`: a path climbs no level exactly if no initial part of it has more `..` than names.
-/

namespace LexicalPath

/-- A segment of a path. -/
inductive Seg (α : Type*) where
  | here
  | up
  | name (a : α)

variable {α : Type*}

/-- One step of the rewriting of a path from the root. -/
inductive Step : List (Seg α) → List (Seg α) → Prop
  | here (l r : List (Seg α)) : Step (l ++ .here :: r) (l ++ r)
  | parent (l r : List (Seg α)) (a : α) : Step (l ++ .name a :: .up :: r) (l ++ r)
  | root (r : List (Seg α)) : Step (.up :: r) r

/-- The path is rewritten to the names. -/
def Resolves (path : List (Seg α)) (names : List α) : Prop :=
  Relation.ReflTransGen Step path (names.map .name)

/-- A segment, from a directory given by the names that lead to it. -/
def enter (dir : List α) : Seg α → List α
  | .here => dir
  | .up => dir.dropLast
  | .name a => dir ++ [a]

/-- A path, from a directory. -/
def walk (dir : List α) (path : List (Seg α)) : List α := path.foldl enter dir

/-- The levels a relative path climbs and the names it then goes down, after a segment. -/
def climbStep : ℕ × List α → Seg α → ℕ × List α
  | (k, names), .here => (k, names)
  | (k, []), .up => (k + 1, [])
  | (k, a :: names), .up => (k, (a :: names).dropLast)
  | (k, names), .name a => (k, names ++ [a])

/-- The levels a relative path climbs and the names it then goes down. -/
def climb (path : List (Seg α)) : ℕ × List α := path.foldl climbStep (0, [])

/-- The segment is a `..`. -/
def Seg.isUp : Seg α → Bool
  | .up => true
  | _ => false

/-- The segment is a name. -/
def Seg.isName : Seg α → Bool
  | .name _ => true
  | _ => false

/-- The number of `..` segments. -/
def ups (path : List (Seg α)) : ℕ := path.countP Seg.isUp

/-- The number of names. -/
def downs (path : List (Seg α)) : ℕ := path.countP Seg.isName

/-- No initial part of the path has more `..` than names. -/
def NeverClimbs (path : List (Seg α)) : Prop := ∀ before, before <+: path → ups before ≤ downs before

/-! ### The rewriting -/

@[simp] theorem walk_nil (dir : List α) : walk dir [] = dir := rfl

@[simp] theorem walk_cons (dir : List α) (s : Seg α) (path : List (Seg α)) :
    walk dir (s :: path) = walk (enter dir s) path := rfl

theorem walk_append (dir : List α) (p q : List (Seg α)) : walk dir (p ++ q) = walk (walk dir p) q :=
  List.foldl_append

theorem walk_names (dir names : List α) : walk dir (names.map .name) = dir ++ names := by
  induction names generalizing dir with
  | nil => exact (List.append_nil dir).symm
  | cons a names ih =>
      rw [List.map_cons, walk_cons, ih]
      exact List.append_assoc dir [a] names

theorem downs_names (names : List α) : downs (names.map .name) = names.length := by
  rw [downs, List.countP_map]
  exact List.countP_eq_length.mpr fun a _ => rfl

/-- A directory is at most one level deeper for each name. -/
theorem length_walk_le (dir : List α) (path : List (Seg α)) :
    (walk dir path).length ≤ dir.length + downs path := by
  induction path generalizing dir with
  | nil => exact le_rfl
  | cons s path ih =>
      refine (ih (enter dir s)).trans ?_
      rw [downs, downs, List.countP_cons]
      cases s <;> simp only [enter, Seg.isName, List.length_append, List.length_dropLast,
        List.length_singleton,
        Bool.false_eq_true, if_false, if_true] <;> omega

/-- A step of the rewriting keeps where the path leads to. -/
theorem Step.walk_eq {p q : List (Seg α)} (h : Step p q) : walk [] p = walk [] q := by
  cases h with
  | here l r => rw [walk_append, walk_append, walk_cons, enter]
  | parent l r a => rw [walk_append, walk_append, walk_cons, walk_cons, enter, enter, List.dropLast_concat]
  | root r => rfl

theorem Step.append_right {p q : List (Seg α)} (h : Step p q) (r : List (Seg α)) :
    Step (p ++ r) (q ++ r) := by
  cases h with
  | here l m =>
      rw [List.append_assoc, List.append_assoc, List.cons_append]
      exact .here l (m ++ r)
  | parent l m a =>
      rw [List.append_assoc, List.append_assoc, List.cons_append, List.cons_append]
      exact .parent l (m ++ r) a
  | root => exact .root (q ++ r)

/-- Every path can be rewritten to the names on the stack. -/
theorem resolves_walk (path : List (Seg α)) : Resolves path (walk [] path) := by
  induction path using List.reverseRecOn with
  | nil => exact .refl
  | append_singleton p s ih =>
      have hp : Relation.ReflTransGen Step (p ++ [s]) ((walk [] p).map .name ++ [s]) :=
        Relation.ReflTransGen.lift (fun q => q ++ [s]) (fun _ _ h => Step.append_right h [s]) _ _ ih
      refine hp.trans ?_
      rw [walk_append]
      generalize walk [] p = names
      cases s with
      | here =>
          have hstep : Step (names.map .name ++ [Seg.here]) (names.map .name ++ []) := .here _ []
          rw [List.append_nil] at hstep
          exact .single hstep
      | name a =>
          rw [walk_cons, walk_nil, enter, List.map_append]
          exact .refl
      | up =>
          rcases List.eq_nil_or_concat names with rfl | ⟨init, a, rfl⟩
          · exact .single (.root [])
          · have hstep : Step (init.map .name ++ Seg.name a :: [.up]) (init.map .name ++ []) :=
              .parent _ [] a
            rw [List.append_nil] at hstep
            rw [List.concat_eq_append, List.map_append, List.append_assoc, walk_cons, walk_nil, enter,
              List.dropLast_concat]
            exact .single hstep

/-- **The rewriting has one result** -/
theorem resolves_iff {path : List (Seg α)} {names : List α} : Resolves path names ↔ names =
    walk [] path := by
  constructor
  · intro h
    have hsame : walk [] path = walk [] (names.map .name) := by
      induction h using Relation.ReflTransGen.head_induction_on with
      | refl => rfl
      | head hstep _ ih => exact hstep.walk_eq.trans ih
    rw [hsame, walk_names, List.nil_append]
  · rintro rfl
    exact resolves_walk path

/-! ### Relative paths -/

theorem climb_concat (p : List (Seg α)) (s : Seg α) : climb (p ++ [s]) = climbStep (climb p) s := by
  rw [climb, List.foldl_append]
  rfl

/-- **A relative path** climbs its levels and goes down its names, from any directory. -/
theorem walk_eq (dir : List α) (path : List (Seg α)) :
    walk dir path = dir.take (dir.length - (climb path).1) ++ (climb path).2 := by
  induction path using List.reverseRecOn with
  | nil => simp [climb]
  | append_singleton p s ih =>
      rw [walk_append, walk_cons, walk_nil, ih, climb_concat]
      generalize climb p = c
      obtain ⟨k, names⟩ := c
      cases s with
      | here => rfl
      | name a => exact List.append_assoc _ _ _
      | up =>
          cases names with
          | nil =>
              rw [enter, climbStep, List.append_nil, List.append_nil, List.dropLast_eq_take, List.take_take,
                List.length_take]
              congr 1
              omega
          | cons a names => exact List.dropLast_append_of_ne_nil (List.cons_ne_nil a names)

/-- A segment changes the numbers by one at most. -/
theorem climbStep_count (c : ℕ × List α) (s : Seg α) :
    (climbStep c s).2.length + c.1 + ups [s] = c.2.length + (climbStep c s).1 + downs [s] := by
  obtain ⟨k, names⟩ := c
  cases s with
  | here => rfl
  | name a => simp [climbStep, ups, downs, Seg.isUp, Seg.isName, Nat.add_right_comm]
  | up =>
      cases names with
      | nil => simp [climbStep, ups, downs, Seg.isUp, Seg.isName]
      | cons a names => simp [climbStep, ups, downs, Seg.isUp, Seg.isName, Nat.add_right_comm]

/-- Names that are left and `..` that met a name make up the names; the others climb. -/
theorem climb_count (path : List (Seg α)) :
    (climb path).2.length + ups path = downs path + (climb path).1 := by
  induction path using List.reverseRecOn with
  | nil => rfl
  | append_singleton p s ih =>
      have hstep := climbStep_count (climb p) s
      have hups : ups (p ++ [s]) = ups p + ups [s] := List.countP_append
      have hdowns : downs (p ++ [s]) = downs p + downs [s] := List.countP_append
      rw [climb_concat]
      omega

theorem climb_le_concat (p : List (Seg α)) (s : Seg α) : (climb p).1 ≤ (climb (p ++ [s])).1 := by
  rw [climb_concat]
  generalize climb p = c
  obtain ⟨k, _ | ⟨a, names⟩⟩ := c <;> cases s <;> simp [climbStep]

theorem NeverClimbs.of_concat {p : List (Seg α)} {s : Seg α} (h : NeverClimbs (p ++ [s])) : NeverClimbs p :=
  fun before hbefore => h before (hbefore.trans (List.prefix_append p [s]))

/-- **No level is climbed** exactly if the `..` always have names before them. -/
theorem climb_eq_zero_iff {path : List (Seg α)} : (climb path).1 = 0 ↔ NeverClimbs path := by
  induction path using List.reverseRecOn with
  | nil =>
      refine ⟨fun _ before hbefore => ?_, fun _ => rfl⟩
      rw [List.prefix_nil.mp hbefore]
      exact le_rfl
  | append_singleton p s ih =>
      have hcount := climb_count (p ++ [s])
      constructor
      · intro hzero before hbefore
        have hp : (climb p).1 = 0 := Nat.le_zero.mp ((climb_le_concat p s).trans hzero.le)
        rcases List.prefix_concat_iff.mp hbefore with rfl | hbefore
        · omega
        · exact ih.mp hp before hbefore
      · intro hnever
        have hp := ih.mpr hnever.of_concat
        have hall := hnever (p ++ [s]) (List.prefix_refl _)
        rw [climb_concat] at hcount ⊢
        generalize climb p = c at hp hcount
        -- only a `..` without a name to drop climbs, and then there is one too many
        obtain ⟨k, _ | ⟨a, names⟩⟩ := c <;> cases s <;>
          simp only [climbStep, List.length_nil] at hp hcount ⊢ <;> omega

end LexicalPath
