import Mathlib.Data.List.Basic
import Mathlib.Data.List.Infix

/-!
# KeyedRecords one after another

A list of records, each a key and a content, written as the key, a mark
and the content, without a length and without an end. The mark is in no
key, but the content is arbitrary: nothing says where it ends and the next
key begins. `after k k'` is what the format asks of a key and a later one
(an order, for example).

So the bytes determine the records only where there is just one of them
and its content cannot be cut (`determined_iff`): what follows a first
record can always be taken for its content, and a piece of content that
reads as a key and a mark for a record of its own.
-/

namespace Zmux

/-- KeyedRecords with keys in the order `after`. -/
structure KeyedRecords (κ β : Type*) (after : κ → κ → Prop) where
  records : List (κ × List β)
  nonempty : records ≠ []
  sorted : records.Pairwise fun r r' => after r.1 r'.1

namespace KeyedRecords

variable {κ β : Type*} {after : κ → κ → Prop} (key : κ → List β) (mark : β)

theorem ext {l l' : KeyedRecords κ β after} (h : l.records = l'.records) : l = l' := by
  cases l
  cases l'
  dsimp only at h
  subst h
  rfl

/-- The bytes of the records. -/
def bytes (records : List (κ × List β)) : List β :=
  records.flatMap fun record => key record.1 ++ mark :: record.2

def single (k : κ) (content : List β) : KeyedRecords κ β after :=
  ⟨[(k, content)], List.cons_ne_nil _ _, List.pairwise_singleton _ _⟩

/-- A key, a mark, and what comes after. -/
theorem key_unique (hkey : Function.Injective key) (hmark : ∀ k, mark ∉ key k) {k k' : κ}
    {back back' : List β} (h : key k ++ mark :: back = key k' ++ mark :: back') :
    k = k' ∧ back = back' := by
  rcases List.append_eq_append_iff.mp h with ⟨more, hmore, hback⟩ | ⟨more, hmore, hback⟩
  · cases more with
    | nil =>
        rw [List.append_nil] at hmore
        exact ⟨hkey hmore.symm, (List.cons.inj hback).2⟩
    | cons b more =>
        have hb : b = mark := (List.cons.inj hback).1.symm
        exact absurd (hmore ▸ List.mem_append_right _ (hb ▸ List.mem_cons_self)) (hmark k')
  · cases more with
    | nil =>
        rw [List.append_nil] at hmore
        exact ⟨hkey hmore, (List.cons.inj hback).2.symm⟩
    | cons b more =>
        have hb : b = mark := (List.cons.inj hback).1.symm
        exact absurd (hmore ▸ List.mem_append_right _ (hb ▸ List.mem_cons_self)) (hmark k)

/-- No other list of records has these bytes exactly when there is one
record whose content has no later key with a mark in it. -/
theorem determined_iff (hkey : Function.Injective key) (hmark : ∀ k, mark ∉ key k)
    (l : KeyedRecords κ β after) :
    (∀ l' : KeyedRecords κ β after, bytes key mark l'.records = bytes key mark l.records → l' = l)
      ↔ ∃ k content, l.records = [(k, content)]
        ∧ ∀ k' front back, after k k' → content ≠ front ++ key k' ++ mark :: back := by
  obtain ⟨records, hnonempty, hsorted⟩ := l
  cases records with
  | nil => exact absurd rfl hnonempty
  | cons record rest =>
      obtain ⟨k, content⟩ := record
      constructor
      · intro h
        have hmerged : (single k (content ++ bytes key mark rest) : KeyedRecords κ β after).records
            = (k, content) :: rest := by
          refine congrArg KeyedRecords.records (h (single k (content ++ bytes key mark rest)) ?_)
          simp [bytes, single]
        obtain rfl := (List.cons.inj hmerged).2
        refine ⟨k, content, rfl, ?_⟩
        rintro k' front back hafter rfl
        have hcut := h ⟨[(k, front), (k', back)], List.cons_ne_nil _ _,
          List.pairwise_pair.mpr hafter⟩ (by simp [bytes])
        cases congrArg (List.length ∘ KeyedRecords.records) hcut
      · rintro ⟨_, _, heq, hcut⟩ ⟨records', hnonempty', hsorted'⟩ hbytes
        obtain ⟨hrecord, rfl⟩ := List.cons.inj heq
        obtain ⟨rfl, rfl⟩ := Prod.mk.inj hrecord
        refine ext ?_
        cases records' with
        | nil => exact absurd rfl hnonempty'
        | cons record' rest' =>
            obtain ⟨k', content'⟩ := record'
            have hsplit : key k' ++ mark :: (content' ++ bytes key mark rest')
                = key k ++ mark :: content := by
              simpa [bytes] using hbytes
            obtain ⟨rfl, hcontent⟩ := key_unique key mark hkey hmark hsplit
            cases rest' with
            | nil =>
                rw [bytes, List.flatMap_nil, List.append_nil] at hcontent
                exact congrArg (fun content => [(k', content)]) hcontent
            | cons next rest' =>
                have hafter := (List.pairwise_cons.mp hsorted').1 next List.mem_cons_self
                refine absurd ?_ (hcut next.1 content' (next.2 ++ bytes key mark rest') hafter)
                rw [← hcontent]
                simp [bytes]

end KeyedRecords

end Zmux
