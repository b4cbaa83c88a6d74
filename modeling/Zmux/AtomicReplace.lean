import Mathlib.Data.List.Basic
import Mathlib.Logic.Function.Basic
import Zmux.Runs

/-!
# Replacing a file through a temporary one

A value is saved by writing it to a temporary file, having the disk take
that file, and renaming it over the live one. `Action` is what may happen
around such a writer: any split of the writes, an operation that raises,
the death of the process, and the loss of power, after which a file the
disk had not taken holds anything, and the live name is the one on the
disk.

`Register` is what the file is for: a value that a save replaces at one
instant, and that a loss of power takes back to the last value that was on
the disk. The live file holds the value of the register after every run
(`read_replayed`). Saves do not overlap; two writers would share the
temporary file.
-/

namespace Zmux

namespace AtomicReplace

variable {V B : Type}

/-! ## The files -/

/-- Files by their numbers, and the directory: the live and the temporary
name, and the live name as the disk has it. -/
structure Volume (B : Type) where
  content : ℕ → List B
  synced : ℕ → Bool
  live : Option ℕ
  temp : Option ℕ
  stored : Option ℕ
  fresh : ℕ

/-- Where a save stands: `rest` is what has not been written yet. -/
inductive Writer (V B : Type) where
  | idle
  | writing (v : V) (file : ℕ) (rest : List B)
  | synced (v : V) (file : ℕ)

structure State (V B : Type) where
  volume : Volume B
  writer : Writer V B

inductive Action (V B : Type) where
  | save (v : V)
  | write (n : ℕ)
  | fsync
  | replace
  | fail
  | persist
  | powerLoss (junk : ℕ → List B) (temp : Option ℕ)

def start : State V B where
  volume := ⟨fun _ => [], fun _ => true, none, none, none, 0⟩
  writer := .idle

namespace Volume

variable (d : Volume B)

/-- `open(temp, "w")`: the file of that name is cut to nothing, or there is
a new one. -/
def openTemp : Volume B × ℕ :=
  let file := d.temp.getD d.fresh
  ({ d with
      content := Function.update d.content file []
      synced := Function.update d.synced file false
      temp := some file
      fresh := if d.temp = none then d.fresh + 1 else d.fresh }, file)

def append (file : ℕ) (bytes : List B) : Volume B :=
  { d with
    content := Function.update d.content file (d.content file ++ bytes)
    synced := Function.update d.synced file false }

def fsync (file : ℕ) : Volume B := { d with synced := Function.update d.synced file true }

/-- `rename`: the live name is the file, and the temporary name is gone. -/
def rename (file : ℕ) : Volume B := { d with live := some file, temp := none }

def persist : Volume B := { d with stored := d.live }

/-- What the machine comes up with. The temporary name is there or not. -/
def powerLoss (junk : ℕ → List B) (temp : Option ℕ) : Volume B :=
  { d with
    content := fun file => if d.synced file then d.content file else junk file
    synced := fun _ => true
    live := d.stored
    temp := temp }

/-- The directory on the disk may have a temporary name for any file but
the one under the live name. -/
def Leftover (temp : Option ℕ) : Prop :=
  ∀ file ∈ temp, file < d.fresh ∧ d.stored ≠ some file

instance (temp : Option ℕ) : Decidable (d.Leftover temp) :=
  inferInstanceAs (Decidable (∀ file ∈ temp, _))

def read : Option (List B) := d.live.map d.content

end Volume

variable (encode : V → List B)

def step (s : State V B) : Action V B → Option (State V B)
  | .save v =>
    match s.writer with
    | .idle =>
      let (volume, file) := s.volume.openTemp
      some ⟨volume, .writing v file (encode v)⟩
    | _ => none
  | .write n =>
    match s.writer with
    | .writing v file rest =>
      some ⟨s.volume.append file (rest.take n), .writing v file (rest.drop n)⟩
    | _ => none
  | .fsync =>
    match s.writer with
    | .writing v file [] => some ⟨s.volume.fsync file, .synced v file⟩
    | _ => none
  | .replace =>
    match s.writer with
    | .synced _ file => some ⟨s.volume.rename file, .idle⟩
    | _ => none
  | .fail => some { s with writer := .idle }
  | .persist => some { s with volume := s.volume.persist }
  | .powerLoss junk temp =>
    if s.volume.Leftover temp then some ⟨s.volume.powerLoss junk temp, .idle⟩ else none

/-! ## The register -/

/-- The value, the value that a loss of power leaves, and the one that a
save under way is going to put there. -/
structure Register (V : Type) where
  value : Option V
  durable : Option V
  pending : Option V

def Register.start : Register V := ⟨none, none, none⟩

def Register.step (r : Register V) : Action V B → Register V
  | .save v => { r with pending := some v }
  | .replace => { r with value := r.pending }
  | .persist => { r with durable := r.value }
  | .powerLoss _ _ => { r with value := r.durable }
  | .write _ | .fsync | .fail => r

/-! ## The files hold the register

A name that matters stands for a file that no writer has open, and that
the disk has taken: neither the writer nor a loss of power changes it. -/

namespace Volume

/-- What a name stands for is the value, and is on the disk. -/
structure Holds (d : Volume B) (name : Option ℕ) (value : Option V) : Prop where
  content : name.map d.content = value.map encode
  synced : ∀ file ∈ name, d.synced file = true
  used : ∀ file ∈ name, file < d.fresh

variable {encode} {d d' : Volume B} {name : Option ℕ} {value : Option V}

theorem Holds.frame (h : d.Holds encode name value)
    (hcontent : ∀ file ∈ name, d'.content file = d.content file)
    (hsynced : ∀ file ∈ name, d.synced file = true → d'.synced file = true)
    (hfresh : d.fresh ≤ d'.fresh) : d'.Holds encode name value where
  content := by
    rw [← h.content]
    cases name with
    | none => rfl
    | some file => exact congrArg some (hcontent file rfl)
  synced file hfile := hsynced file hfile (h.synced file hfile)
  used file hfile := Nat.lt_of_lt_of_le (h.used file hfile) hfresh

/-- A change to one file is none to a name for another. -/
theorem Holds.update (h : d.Holds encode name value) {file : ℕ} (hfile : name ≠ some file)
    (hcontent : ∀ other, other ≠ file → d'.content other = d.content other)
    (hsynced : ∀ other, other ≠ file → d'.synced other = d.synced other)
    (hfresh : d.fresh ≤ d'.fresh) : d'.Holds encode name value := by
  have hne : ∀ other ∈ name, other ≠ file := by
    rintro other hother rfl
    exact hfile hother
  exact h.frame (fun other hother => hcontent other (hne other hother))
    (fun other hother hsync => (hsynced other (hne other hother)).trans hsync) hfresh

/-- The temporary name stands for a file of its own. -/
def TempApart (d : Volume B) : Prop :=
  ∀ file ∈ d.temp, file < d.fresh ∧ d.live ≠ some file ∧ d.stored ≠ some file

end Volume

/-- A save under way has the temporary file open, with a first part of the
text in it. -/
def Writer.Saves (d : Volume B) (pending : Option V) : Writer V B → Prop
  | .idle => True
  | .writing v file rest =>
    d.temp = some file ∧ pending = some v ∧ d.content file ++ rest = encode v
  | .synced v file =>
    d.temp = some file ∧ pending = some v ∧ d.content file = encode v ∧ d.synced file = true

structure Agrees (s : State V B) (r : Register V) : Prop where
  live : s.volume.Holds encode s.volume.live r.value
  stored : s.volume.Holds encode s.volume.stored r.durable
  temp : s.volume.TempApart
  writer : s.writer.Saves encode s.volume r.pending

variable {encode} {s s' : State V B} {r : Register V}

theorem agrees_start : Agrees encode (start : State V B) Register.start where
  live :=
    ⟨rfl, fun _ h => (Option.not_mem_none _ h).elim, fun _ h => (Option.not_mem_none _ h).elim⟩
  stored :=
    ⟨rfl, fun _ h => (Option.not_mem_none _ h).elim, fun _ h => (Option.not_mem_none _ h).elim⟩
  temp := fun _ h => (Option.not_mem_none _ h).elim
  writer := trivial

/-- The file that a save opens is not the one under a name that matters. -/
theorem Agrees.openTemp_apart (h : Agrees encode s r) :
    s.volume.live ≠ some s.volume.openTemp.2 ∧ s.volume.stored ≠ some s.volume.openTemp.2 := by
  rw [Volume.openTemp]
  dsimp only
  cases htemp : s.volume.temp with
  | some file => exact (h.temp file htemp).2
  | none =>
      exact ⟨fun heq => absurd (h.live.used _ heq) (Nat.lt_irrefl _),
        fun heq => absurd (h.stored.used _ heq) (Nat.lt_irrefl _)⟩

theorem agrees_save (h : Agrees encode s r) (v : V) :
    Agrees encode ⟨s.volume.openTemp.1, .writing v s.volume.openTemp.2 (encode v)⟩
      (r.step (.save v : Action V B)) := by
  obtain ⟨hlive, hstored⟩ := h.openTemp_apart
  have hcontent : ∀ other, other ≠ s.volume.openTemp.2 →
      s.volume.openTemp.1.content other = s.volume.content other :=
    fun other hother => Function.update_of_ne hother ..
  have hsynced : ∀ other, other ≠ s.volume.openTemp.2 →
      s.volume.openTemp.1.synced other = s.volume.synced other :=
    fun other hother => Function.update_of_ne hother ..
  have hfresh : s.volume.fresh ≤ s.volume.openTemp.1.fresh := by
    simp only [Volume.openTemp]
    split <;> omega
  refine ⟨h.live.update hlive hcontent hsynced hfresh,
    h.stored.update hstored hcontent hsynced hfresh, ?_, rfl, rfl, ?_⟩
  · intro file hfile
    obtain rfl := Option.some.inj hfile
    refine ⟨?_, hlive, hstored⟩
    simp only [Volume.openTemp]
    cases htemp : s.volume.temp with
    | some file =>
        rw [if_neg (by simp)]
        exact (h.temp file htemp).1
    | none =>
        rw [if_pos rfl]
        exact Nat.lt_succ_self _
  · show Function.update s.volume.content s.volume.openTemp.2 [] s.volume.openTemp.2 ++ encode v = _
    rw [Function.update_self, List.nil_append]

theorem agrees_write (h : Agrees encode s r) {v : V} {file : ℕ} {rest : List B}
    (hwriter : s.writer = .writing v file rest) (n : ℕ) :
    Agrees encode ⟨s.volume.append file (rest.take n), .writing v file (rest.drop n)⟩ r := by
  have hsaves := h.writer
  rw [hwriter] at hsaves
  obtain ⟨htemp, hpending, htext⟩ := hsaves
  obtain ⟨-, hlive, hstored⟩ := h.temp file htemp
  have hcontent : ∀ other, other ≠ file →
      (s.volume.append file (rest.take n)).content other = s.volume.content other :=
    fun other hother => Function.update_of_ne hother ..
  have hsynced : ∀ other, other ≠ file →
      (s.volume.append file (rest.take n)).synced other = s.volume.synced other :=
    fun other hother => Function.update_of_ne hother ..
  refine ⟨h.live.update hlive hcontent hsynced (Nat.le_refl _),
    h.stored.update hstored hcontent hsynced (Nat.le_refl _), h.temp, htemp, hpending, ?_⟩
  show Function.update s.volume.content file (s.volume.content file ++ rest.take n) file
    ++ rest.drop n = _
  rw [Function.update_self, List.append_assoc, List.take_append_drop, htext]

theorem agrees_fsync (h : Agrees encode s r) {v : V} {file : ℕ}
    (hwriter : s.writer = .writing v file []) :
    Agrees encode ⟨s.volume.fsync file, .synced v file⟩ r := by
  have hsaves := h.writer
  rw [hwriter] at hsaves
  obtain ⟨htemp, hpending, htext⟩ := hsaves
  rw [List.append_nil] at htext
  have hsynced : ∀ other, s.volume.synced other = true →
      (s.volume.fsync file).synced other = true := by
    intro other hother
    show Function.update s.volume.synced file true other = true
    rw [Function.update_apply, hother, ite_self]
  exact ⟨h.live.frame (fun _ _ => rfl) (fun other _ => hsynced other) (Nat.le_refl _),
    h.stored.frame (fun _ _ => rfl) (fun other _ => hsynced other) (Nat.le_refl _), h.temp,
    htemp, hpending, htext, Function.update_self ..⟩

theorem agrees_replace (h : Agrees encode s r) {v : V} {file : ℕ}
    (hwriter : s.writer = .synced v file) :
    Agrees encode ⟨s.volume.rename file, .idle⟩ (r.step (.replace : Action V B)) := by
  have hsaves := h.writer
  rw [hwriter] at hsaves
  obtain ⟨htemp, hpending, htext, hsync⟩ := hsaves
  refine ⟨⟨?_, ?_, ?_⟩, ⟨h.stored.content, h.stored.synced, h.stored.used⟩,
    fun _ hfile => (Option.not_mem_none _ hfile).elim, trivial⟩
  · show some (s.volume.content file) = r.pending.map encode
    rw [hpending, htext]
    rfl
  · rintro other hother
    obtain rfl := Option.some.inj hother
    exact hsync
  · rintro other hother
    obtain rfl := Option.some.inj hother
    exact (h.temp file htemp).1

theorem agrees_powerLoss (h : Agrees encode s r) {junk : ℕ → List B} {temp : Option ℕ}
    (htemp : s.volume.Leftover temp) :
    Agrees encode ⟨s.volume.powerLoss junk temp, .idle⟩ (r.step (.powerLoss junk temp)) := by
  have hstored : (s.volume.powerLoss junk temp).Holds encode s.volume.stored r.durable :=
    h.stored.frame (fun file hfile => if_pos (h.stored.synced file hfile)) (fun _ _ _ => rfl)
      (Nat.le_refl _)
  exact ⟨hstored, hstored,
    fun file hfile => ⟨(htemp file hfile).1, (htemp file hfile).2, (htemp file hfile).2⟩, trivial⟩

theorem agrees_step {a : Action V B} (h : Agrees encode s r) (hstep : step encode s a = some s') :
    Agrees encode s' (r.step a) := by
  cases a with
  | save v =>
      dsimp only [step] at hstep
      split at hstep
      · exact Option.some.inj hstep ▸ agrees_save h v
      · cases hstep
  | write n =>
      dsimp only [step] at hstep
      split at hstep
      · rename_i hwriter
        exact Option.some.inj hstep ▸ agrees_write h hwriter n
      · cases hstep
  | fsync =>
      dsimp only [step] at hstep
      split at hstep
      · rename_i hwriter
        exact Option.some.inj hstep ▸ agrees_fsync h hwriter
      · cases hstep
  | replace =>
      dsimp only [step] at hstep
      split at hstep
      · rename_i hwriter
        exact Option.some.inj hstep ▸ agrees_replace h hwriter
      · cases hstep
  | fail =>
      obtain rfl := Option.some.inj hstep
      exact ⟨h.live, h.stored, h.temp, trivial⟩
  | persist =>
      obtain rfl := Option.some.inj hstep
      have hlive : s.volume.persist.Holds encode s.volume.live r.value :=
        h.live.frame (fun _ _ => rfl) (fun _ _ hsync => hsync) (Nat.le_refl _)
      refine ⟨hlive, hlive, fun file hfile => ?_, ?_⟩
      · obtain ⟨hused, hfile, -⟩ := h.temp file hfile
        exact ⟨hused, hfile, hfile⟩
      · have hsaves := h.writer
        cases hwriter : s.writer with
        | idle => trivial
        | writing | synced => exact hwriter ▸ hsaves
  | powerLoss junk temp =>
      dsimp only [step] at hstep
      split at hstep
      · rename_i htemp
        exact Option.some.inj hstep ▸ agrees_powerLoss h htemp
      · cases hstep

/-- After any run the live file holds the value of the register. -/
theorem read_replayed {actions : List (Action V B)}
    (h : replay (step encode) Free start actions = some s) :
    s.volume.read = (actions.foldl Register.step Register.start).value.map encode :=
  (replay_follows (fun _ _ _ _ hagrees _ hstep => agrees_step hagrees hstep) agrees_start
    h).live.content

end AtomicReplace

end Zmux
