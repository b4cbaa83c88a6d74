import Mathlib.Data.List.Basic
import Mathlib.Data.List.Induction
import Mathlib.Data.List.Pairwise
import Mathlib.Order.Lattice

/-!
# The lightest value of each key

A table with one value for each key. A value that comes in takes the place
of the one that is there only if it is lighter. Whatever the order in
which the values come in, the table holds a lightest one for each of their
keys (`lightest_collect`). Where no two values of a key weigh the same it
holds exactly the lightest ones (`mem_collect_iff`), and so the same for
each order (`collect_perm`).
-/

namespace Zmux

namespace LightestByKey

variable {κ ω ρ : Type*} [DecidableEq κ] [LinearOrder ω] (key : ρ → κ) (weight : ρ → ω)

/-- One value comes in. -/
def consider (table : List ρ) (r : ρ) : List ρ :=
  match table.find? fun e => key e = key r with
  | none => table ++ [r]
  | some e =>
    if weight r < weight e then table.map fun e => if key e = key r then r else e else table

def collect (rs : List ρ) : List ρ := rs.foldl (consider key weight) []

/-- The table holds a lightest value for each key. -/
structure Lightest (rs table : List ρ) : Prop where
  apart : table.Pairwise fun e e' => key e ≠ key e'
  lightest : ∀ e ∈ table, e ∈ rs ∧ ∀ r ∈ rs, key r = key e → weight e ≤ weight r
  complete : ∀ r ∈ rs, ∃ e ∈ table, key e = key r

variable {key weight} {rs rs' table : List ρ} {r : ρ}

omit [DecidableEq κ] in
theorem Lightest.eq_of_key (h : Lightest key weight rs table) {e e' : ρ} (he : e ∈ table)
    (he' : e' ∈ table) (hkey : key e = key e') : e = e' := by
  by_contra hne
  have : Std.Symm fun e e' : ρ => key e ≠ key e' := ⟨fun _ _ => Ne.symm⟩
  exact h.apart.forall he he' hne hkey

omit [DecidableEq κ] in
/-- A new key. -/
theorem Lightest.append (h : Lightest key weight rs table) (hnew : ∀ e ∈ table, key e ≠ key r) :
    Lightest key weight (rs ++ [r]) (table ++ [r]) where
  apart := by
    refine List.pairwise_append.mpr ⟨h.apart, List.pairwise_singleton .., fun e he e' he' => ?_⟩
    rw [List.mem_singleton.mp he']
    exact hnew e he
  lightest := by
    intro e he
    rcases List.mem_append.mp he with hold | hold
    · obtain ⟨hmem, hle⟩ := h.lightest e hold
      refine ⟨List.mem_append_left _ hmem, fun r' hr' hkey => ?_⟩
      rcases List.mem_append.mp hr' with hr' | hr'
      · exact hle r' hr' hkey
      · rw [List.mem_singleton.mp hr'] at hkey
        exact absurd hkey.symm (hnew e hold)
    · obtain rfl := List.mem_singleton.mp hold
      refine ⟨List.mem_append_right _ hold, fun r' hr' hkey => ?_⟩
      rcases List.mem_append.mp hr' with hr' | hr'
      · obtain ⟨e', he', hkey'⟩ := h.complete r' hr'
        exact absurd (hkey'.trans hkey) (hnew e' he')
      · rw [List.mem_singleton.mp hr']
  complete := by
    intro r' hr'
    rcases List.mem_append.mp hr' with hr' | hr'
    · obtain ⟨e, he, hkey⟩ := h.complete r' hr'
      exact ⟨e, List.mem_append_left _ he, hkey⟩
    · exact ⟨r', List.mem_append_right _ hr', rfl⟩

omit [DecidableEq κ] in
/-- A value that is no lighter than that of its key. -/
theorem Lightest.keep (h : Lightest key weight rs table) {e : ρ} (he : e ∈ table)
    (hkey : key e = key r) (hle : weight e ≤ weight r) :
    Lightest key weight (rs ++ [r]) table where
  apart := h.apart
  lightest := by
    intro e' he'
    obtain ⟨hmem, hlightest⟩ := h.lightest e' he'
    refine ⟨List.mem_append_left _ hmem, fun r' hr' hkey' => ?_⟩
    rcases List.mem_append.mp hr' with hr' | hr'
    · exact hlightest r' hr' hkey'
    · obtain rfl := List.mem_singleton.mp hr'
      rw [h.eq_of_key he' he (hkey'.symm.trans hkey.symm)]
      exact hle
  complete := by
    intro r' hr'
    rcases List.mem_append.mp hr' with hr' | hr'
    · exact h.complete r' hr'
    · obtain rfl := List.mem_singleton.mp hr'
      exact ⟨e, he, hkey⟩

/-- A lighter value. -/
theorem Lightest.replace (h : Lightest key weight rs table) {e : ρ} (he : e ∈ table)
    (hkey : key e = key r) (hlt : weight r < weight e) :
    Lightest key weight (rs ++ [r]) (table.map fun e => if key e = key r then r else e) where
  apart := by
    refine List.pairwise_map.mpr (h.apart.imp fun hne => ?_)
    split <;> split <;> simp_all
  lightest := by
    intro e' he'
    obtain ⟨old, hold, rfl⟩ := List.mem_map.mp he'
    obtain ⟨hmem, hlightest⟩ := h.lightest old hold
    split
    · rename_i hsame
      obtain rfl := h.eq_of_key hold he (hsame.trans hkey.symm)
      refine ⟨List.mem_append_right _ List.mem_cons_self, fun r' hr' hkey' => ?_⟩
      rcases List.mem_append.mp hr' with hr' | hr'
      · exact hlt.le.trans (hlightest r' hr' (hkey'.trans hkey.symm))
      · rw [List.mem_singleton.mp hr']
    · rename_i hother
      refine ⟨List.mem_append_left _ hmem, fun r' hr' hkey' => ?_⟩
      rcases List.mem_append.mp hr' with hr' | hr'
      · exact hlightest r' hr' hkey'
      · rw [List.mem_singleton.mp hr'] at hkey'
        exact absurd hkey'.symm hother
  complete := by
    intro r' hr'
    have hsame : ∀ old ∈ table, key (if key old = key r then r else old) = key old := by
      intro old _
      split
      · rename_i heq
        exact heq.symm
      · rfl
    have hold : ∃ old ∈ table, key old = key r' := by
      rcases List.mem_append.mp hr' with hr' | hr'
      · exact h.complete r' hr'
      · rw [List.mem_singleton.mp hr']
        exact ⟨e, he, hkey⟩
    obtain ⟨old, hmem, hold⟩ := hold
    exact ⟨_, List.mem_map_of_mem hmem, (hsame old hmem).trans hold⟩

theorem Lightest.consider (h : Lightest key weight rs table) (r : ρ) :
    Lightest key weight (rs ++ [r]) (consider key weight table r) := by
  rw [LightestByKey.consider]
  cases hfind : table.find? fun e => key e = key r with
  | none =>
      refine h.append fun e he => ?_
      simpa using List.find?_eq_none.mp hfind e he
  | some e =>
      have he : e ∈ table := List.mem_of_find?_eq_some hfind
      have hkey : key e = key r := by simpa using List.find?_some hfind
      dsimp only
      split
      · rename_i hlt
        exact h.replace he hkey hlt
      · rename_i hnot
        exact h.keep he hkey (not_lt.mp hnot)

theorem lightest_collect (rs : List ρ) : Lightest key weight rs (collect key weight rs) := by
  induction rs using List.reverseRecOn with
  | nil => exact ⟨List.Pairwise.nil, fun e he => (by cases he), fun r hr => by cases hr⟩
  | append_singleton rs r ih =>
      rw [collect, List.foldl_concat]
      exact ih.consider r

/-- Of values that weigh differently, the table holds the lightest. -/
theorem mem_collect_iff
    (hweight : ∀ r ∈ rs, ∀ r' ∈ rs, key r = key r' → weight r = weight r' → r = r') :
    r ∈ collect key weight rs ↔ r ∈ rs ∧ ∀ r' ∈ rs, key r' = key r → weight r ≤ weight r' := by
  have h : Lightest key weight rs (collect key weight rs) := lightest_collect rs
  refine ⟨h.lightest r, fun ⟨hmem, hle⟩ => ?_⟩
  obtain ⟨e, he, hkey⟩ := h.complete r hmem
  obtain ⟨hrs, hlightest⟩ := h.lightest e he
  rw [hweight r hmem e hrs hkey.symm (le_antisymm (hle e hrs hkey) (hlightest r hmem hkey.symm))]
  exact he

theorem collect_perm (hperm : rs.Perm rs')
    (hweight : ∀ r ∈ rs, ∀ r' ∈ rs, key r = key r' → weight r = weight r' → r = r') :
    (collect key weight rs).Perm (collect key weight rs') := by
  have hnodup : ∀ rs : List ρ, (collect key weight rs).Nodup := fun rs =>
    List.nodup_iff_pairwise_ne.mpr
      ((lightest_collect rs).apart.imp fun hne heq => hne (congrArg key heq))
  have hweight' : ∀ r ∈ rs', ∀ r' ∈ rs', key r = key r' → weight r = weight r' → r = r' :=
    fun r hr r' hr' => hweight r (hperm.mem_iff.mpr hr) r' (hperm.mem_iff.mpr hr')
  refine (List.perm_ext_iff_of_nodup (hnodup rs) (hnodup rs')).mpr fun r => ?_
  rw [mem_collect_iff hweight, mem_collect_iff hweight', hperm.mem_iff]
  constructor
  · exact fun ⟨hmem, hle⟩ => ⟨hmem, fun r' hr' => hle r' (hperm.mem_iff.mpr hr')⟩
  · exact fun ⟨hmem, hle⟩ => ⟨hmem, fun r' hr' => hle r' (hperm.mem_iff.mp hr')⟩

end LightestByKey

end Zmux
