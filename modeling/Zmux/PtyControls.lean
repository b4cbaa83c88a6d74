import Mathlib.Data.List.Basic

/-!
# The control filter of a session's output

`_filter_pty_controls` of `pty_session.py` takes the private storage OSC
out of the output and keeps back a suffix that may be the start of one.
The filter only looks at the values of the bytes, so it is stated over
any type `β` of bytes with a `value`: with `β := UInt8` it is the source's
function, and with bytes that carry their origin the same function says
where each byte goes.

`filterPtyControls_perm` is what the rest relies on: the filter neither
loses nor duplicates a byte, and what it takes out are complete OSCs.
-/

namespace Zmux

/-- `_STORAGE_SETUP_OSC`: `ESC ]777;zmux-setup-storage BEL`. -/
def storageSetupOsc : List UInt8 :=
  0x1b :: ("]777;zmux-setup-storage".toList.map fun c => c.toNat.toUInt8) ++ [0x07]

section Filter

variable {β : Type*} (value : β → UInt8)

/-- `bytes.find`. -/
def findBytes (needle : List UInt8) : List β → Option Nat
  | [] => if needle = [] then some 0 else none
  | b :: bs =>
    if needle.isPrefixOf ((b :: bs).map value) then some 0
    else (findBytes needle bs).map (· + 1)

/-- The loop of `_possible_control_prefix`, from `size` downwards. -/
def prefixLoop (data : List β) : Nat → Nat
  | 0 => 0
  | size + 1 =>
    if (data.drop (data.length - (size + 1))).map value = storageSetupOsc.take (size + 1)
    then size + 1
    else prefixLoop data size

/-- `_possible_control_prefix`: the length of the longest suffix that may
start the storage OSC. -/
def possibleControlPrefix (data : List β) : Nat :=
  prefixLoop value data (min data.length (storageSetupOsc.length - 1))

/-- The loop of `_filter_pty_controls`: the output, the new tail and the
number of OSCs. A turn that goes on removes an OSC, so the length of
`pending` bounds the turns. -/
def filterLoop : Nat → List β → List β × List β × Nat
  | 0, pending => ([], pending, 0)
  | turns + 1, pending =>
    if pending.isEmpty then ([], [], 0)
    else match findBytes value storageSetupOsc pending with
      | some at_ =>
        let (out, tail, controls) := filterLoop turns
          (pending.drop (at_ + storageSetupOsc.length))
        (pending.take at_ ++ out, tail, controls + 1)
      | none =>
        let keep := possibleControlPrefix value pending
        if keep ≠ 0 then
          (pending.take (pending.length - keep), pending.drop (pending.length - keep), 0)
        else (pending, [], 0)

/-- `_filter_pty_controls` on the old tail and the new data. -/
def filterPtyControls (pending : List β) : List β × List β × Nat :=
  filterLoop value (pending.length + 1) pending

/-! ## Nothing is lost -/

variable {value}

theorem findBytes_some {needle : List UInt8} : ∀ {data : List β} {i : Nat},
    findBytes value needle data = some i →
      ((data.drop i).take needle.length).map value = needle
  | [], i, h => by
      rw [findBytes] at h
      split at h
      · rename_i hneedle
        rw [hneedle]
        simp
      · cases h
  | b :: bs, i, h => by
      rw [findBytes] at h
      split at h
      · rename_i hprefix
        obtain rfl := Option.some.inj h
        rw [List.isPrefixOf_iff_prefix] at hprefix
        rw [List.drop_zero, List.map_take, ← List.prefix_iff_eq_take.mp hprefix]
      · obtain ⟨j, hj, rfl⟩ := Option.map_eq_some_iff.mp h
        rw [List.drop_succ_cons]
        exact findBytes_some hj

theorem filterLoop_perm : ∀ (turns : Nat) (pending : List β),
    ∃ removed, ((filterLoop value turns pending).1 ++ (filterLoop value turns pending).2.1
        ++ removed).Perm pending
      ∧ removed.map value
        = (List.replicate (filterLoop value turns pending).2.2 storageSetupOsc).flatten
  | 0, pending => ⟨[], by simp [filterLoop], by simp [filterLoop]⟩
  | turns + 1, pending => by
      rw [filterLoop]
      split
      · rename_i hempty
        rw [List.isEmpty_iff] at hempty
        exact ⟨[], by simp [hempty], by simp⟩
      · split
        · rename_i i hfind
          obtain ⟨removed, hperm, hvalues⟩ :=
            filterLoop_perm turns (pending.drop (i + storageSetupOsc.length))
          refine ⟨(pending.drop i).take storageSetupOsc.length ++ removed, ?_, ?_⟩
          · have hsplit : pending = pending.take i
                ++ ((pending.drop i).take storageSetupOsc.length
                  ++ pending.drop (i + storageSetupOsc.length)) := by
              rw [← List.drop_drop, List.take_append_drop, List.take_append_drop]
            conv_rhs => rw [hsplit]
            simp only [List.append_assoc]
            refine List.Perm.append_left _ ?_
            rw [← List.append_assoc]
            refine (List.perm_append_comm_assoc ..).trans (List.Perm.append_left _ ?_)
            exact hperm
          · rw [List.map_append, findBytes_some hfind, hvalues, List.replicate_succ,
              List.flatten_cons]
        · dsimp only
          split
          · exact ⟨[], by simp, by simp⟩
          · exact ⟨[], by simp, by simp⟩

/-- **The filter keeps every byte** of its input in the output or the
tail, apart from those of the OSCs it counts. -/
theorem filterPtyControls_perm (value : β → UInt8) (pending : List β) :
    ∃ removed, ((filterPtyControls value pending).1 ++ (filterPtyControls value pending).2.1
        ++ removed).Perm pending
      ∧ removed.map value
        = (List.replicate (filterPtyControls value pending).2.2 storageSetupOsc).flatten :=
  filterLoop_perm _ pending

end Filter

end Zmux
