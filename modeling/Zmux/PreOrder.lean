import Mathlib.Data.List.Basic
import Mathlib.Data.List.Nodup
import Mathlib.Logic.Relation

/-!
# Pre-order

A forest is given by the children of each node, with a rank that falls from
a node to its children. `preorder` is the recursive listing, a node ahead of
what is below it; `walk` is the loop with a stack of nodes that are yet to
be visited. The loop visits what the recursion lists, in the same order, as
soon as its fuel exceeds the number of nodes (`walk_eq`).

A node is listed when it can be reached (`mem_preorder_iff`), and once if
every node has one parent and no parent has a child twice
(`nodup_preorder`).
-/

namespace Zmux

structure Forest (α : Type*) where
  children : α → List α
  rank : α → ℕ
  rank_child : ∀ {a b}, b ∈ children a → rank b < rank a

namespace Forest

variable {α : Type*} (f : Forest α)

def preorder (a : α) : List α :=
  a :: (f.children a).attach.flatMap fun b => preorder b.1
termination_by f.rank a
decreasing_by exact f.rank_child b.2

/-- The stack is given from its top. -/
def walk : ℕ → List α → Option (List α)
  | 0, _ => none
  | _ + 1, [] => some []
  | fuel + 1, a :: stack => (walk fuel (f.children a ++ stack)).map (a :: ·)

variable {f} {a b : α}

theorem preorder_eq (a : α) : f.preorder a = a :: (f.children a).flatMap f.preorder := by
  rw [preorder, ← List.flatMap_map Subtype.val, List.attach_map_subtype_val]

theorem walk_eq {fuel : ℕ} : ∀ {stack : List α}, (stack.flatMap f.preorder).length < fuel →
    f.walk fuel stack = some (stack.flatMap f.preorder) := by
  induction fuel with
  | zero => exact fun h => absurd h (Nat.not_lt_zero _)
  | succ fuel ih =>
      intro stack h
      cases stack with
      | nil => rfl
      | cons a stack =>
          have hsplit : (a :: stack).flatMap f.preorder
              = a :: (f.children a ++ stack).flatMap f.preorder := by
            rw [List.flatMap_cons, preorder_eq, List.flatMap_append, List.cons_append]
          rw [hsplit] at h ⊢
          rw [walk, ih (Nat.lt_of_succ_lt_succ h)]
          rfl

/-! ## What is listed -/

/-- `b` is a child of `a`. -/
def Child (f : Forest α) (a b : α) : Prop := b ∈ f.children a

theorem rank_le (h : Relation.ReflTransGen f.Child a b) : f.rank b ≤ f.rank a := by
  induction h with
  | refl => exact Nat.le_refl _
  | tail _ hchild ih => exact Nat.le_trans (Nat.le_of_lt (f.rank_child hchild)) ih

theorem mem_preorder_iff : b ∈ f.preorder a ↔ Relation.ReflTransGen f.Child a b := by
  induction hrank : f.rank a using Nat.strongRecOn generalizing a with
  | ind n ih =>
    rw [preorder_eq, List.mem_cons, List.mem_flatMap]
    constructor
    · rintro (rfl | ⟨c, hc, hb⟩)
      · exact .refl
      · exact .head hc ((ih (f.rank c) (hrank ▸ f.rank_child hc) rfl).mp hb)
    · intro h
      rcases Relation.ReflTransGen.cases_head h with rfl | ⟨c, hc, hb⟩
      · exact Or.inl rfl
      · exact Or.inr ⟨c, hc, (ih (f.rank c) (hrank ▸ f.rank_child hc) rfl).mpr hb⟩

/-- Two nodes above one are above one another. -/
theorem above_total (hparent : ∀ {a a' b}, f.Child a b → f.Child a' b → a = a') {c : α}
    (ha : Relation.ReflTransGen f.Child a c) (hb : Relation.ReflTransGen f.Child b c) :
    Relation.ReflTransGen f.Child a b ∨ Relation.ReflTransGen f.Child b a := by
  induction ha with
  | refl => exact Or.inr hb
  | tail hfront hlast ih =>
      rcases Relation.ReflTransGen.cases_tail hb with rfl | ⟨d, hd, hchild⟩
      · exact Or.inl (hfront.tail hlast)
      · exact ih (hparent hchild hlast ▸ hd)

/-- Nothing is below two children of one node. -/
theorem child_eq (hparent : ∀ {a a' b}, f.Child a b → f.Child a' b → a = a') {c d : α}
    (hc : f.Child a c) (hd : f.Child a d) (hb : Relation.ReflTransGen f.Child c d) : c = d := by
  rcases Relation.ReflTransGen.cases_tail hb with rfl | ⟨e, he, hchild⟩
  · rfl
  · -- the parent of `d` is `a`, which is above `c`
    have hrank := rank_le he
    rw [hparent hchild hd] at hrank
    exact absurd (f.rank_child hc) (Nat.not_lt.mpr hrank)

theorem nodup_preorder (hparent : ∀ {a a' b}, f.Child a b → f.Child a' b → a = a')
    (hnodup : ∀ a, (f.children a).Nodup) (a : α) : (f.preorder a).Nodup := by
  induction hrank : f.rank a using Nat.strongRecOn generalizing a with
  | ind n ih =>
    rw [preorder_eq, List.nodup_cons]
    constructor
    · intro hmem
      obtain ⟨c, hc, ha⟩ := List.mem_flatMap.mp hmem
      have hle := rank_le (mem_preorder_iff.mp ha)
      exact absurd (f.rank_child hc) (Nat.not_lt.mpr hle)
    · refine List.nodup_flatMap.mpr
        ⟨fun c hc => ih (f.rank c) (hrank ▸ f.rank_child hc) c rfl, ?_⟩
      refine (hnodup a).imp_of_mem fun {c d} hc hd hne => ?_
      intro b hbc hbd
      rcases above_total hparent (mem_preorder_iff.mp hbc) (mem_preorder_iff.mp hbd) with h | h
      · exact hne (child_eq hparent hc hd h)
      · exact hne (child_eq hparent hd hc h).symm

end Forest

end Zmux
