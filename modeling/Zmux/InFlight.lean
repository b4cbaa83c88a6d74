import Mathlib.Data.List.Basic

/-!
# Writes in flight

A writer appends to a store first and delivers what it appended in a later
step; between the two the write is in flight. `owed` is what the writes in
flight that count (`mine`) still have to deliver, in the order they were
appended. A receiver that has everything but what it is owed stays so when
a write begins (`owed_snoc`), when one that does not count ends
(`owed_erase_other`) and when the oldest one is delivered
(`owed_erase_first`).
-/

namespace Zmux

section InFlight

variable {ι β : Type*} (data : ι → List β) (mine : ι → Bool)

def owed (items : List ι) : List β := (items.filter mine).flatMap data

variable {data mine}

@[simp] theorem owed_nil : owed data mine [] = [] := rfl

theorem owed_append (items more : List ι) :
    owed data mine (items ++ more) = owed data mine items ++ owed data mine more := by
  simp only [owed, List.filter_append, List.flatMap_append]

theorem owed_cons (i : ι) (items : List ι) :
    owed data mine (i :: items) = (if mine i then data i else []) ++ owed data mine items := by
  cases h : mine i with
  | true => simp [owed, h]
  | false => simp [owed, h]

theorem owed_snoc (items : List ι) (i : ι) :
    owed data mine (items ++ [i]) = owed data mine items ++ (if mine i then data i else []) := by
  rw [owed_append, owed_cons, owed_nil, List.append_nil]

theorem owed_eq_nil {items : List ι} (h : ∀ i ∈ items, mine i = false) :
    owed data mine items = [] := by
  have hnone : items.filter mine = [] := by
    rw [List.filter_eq_nil_iff]
    intro i hi
    simp [h i hi]
  rw [owed, hnone]
  rfl

theorem split_at {items : List ι} {k : Nat} {i : ι} (h : items[k]? = some i) :
    items = items.take k ++ i :: items.drop (k + 1) := by
  obtain ⟨hlt, rfl⟩ := List.getElem?_eq_some_iff.mp h
  rw [← List.drop_eq_getElem_cons hlt, List.take_append_drop]

theorem owed_erase_other {items : List ι} {k : Nat} {i : ι} (h : items[k]? = some i)
    (hi : mine i = false) : owed data mine (items.eraseIdx k) = owed data mine items := by
  have hsplit := split_at h
  rw [List.eraseIdx_eq_take_drop_succ]
  conv_rhs => rw [hsplit]
  rw [owed_append, owed_append, owed_cons, hi]
  rfl

theorem owed_erase_first {items : List ι} {k : Nat} {i : ι} (h : items[k]? = some i)
    (hi : mine i = true) (hfirst : ∀ j ∈ items.take k, mine j = false) :
    owed data mine items = data i ++ owed data mine (items.eraseIdx k) := by
  have hsplit := split_at h
  rw [List.eraseIdx_eq_take_drop_succ]
  conv_lhs => rw [hsplit]
  rw [owed_append, owed_append, owed_cons, hi, owed_eq_nil hfirst]
  rfl

/-- Changing a write in flight without touching what it carries. -/
theorem owed_set {items : List ι} {k : Nat} {i i' : ι} (h : items[k]? = some i)
    (hdata : data i' = data i) (hmine : mine i' = mine i) :
    owed data mine (items.set k i') = owed data mine items := by
  have hsplit := split_at h
  obtain ⟨hlt, -⟩ := List.getElem?_eq_some_iff.mp h
  rw [List.set_eq_take_append_cons_drop, if_pos hlt]
  conv_rhs => rw [hsplit]
  rw [owed_append, owed_append, owed_cons, owed_cons, hdata, hmine]

end InFlight

end Zmux
