import Mathlib.Data.List.AList
import Mathlib.Data.List.Nodup
import Zmux.TabManager

/-!
# The session table

`SessionManager` of `sessions.py` with all that it keeps about its
sessions: the dictionary `_sessions`, the tab order `_order`, `_active`,
the counter behind the ids, and the geometry new and shown sessions get.
The session objects are of any class (`SessionClass`); starting and
stopping one succeeds. What is broadcast is the subject of the models of
the screen.

The sequential operations one after another, in any order and with any
ids: `table_is_sound` says what holds after each of them. That `_sessions`
and `_order` always hold the same ids is why `Manager` can do with one
list (`models_create`, `models_switch`, `models_close`).
-/

namespace Zmux

/-- `str` of a counter value. -/
def str (n : ℕ) : String := String.ofList (Nat.toDigits 10 n)

theorem str_injective : Function.Injective str := by
  intro m n h
  have hdigits : Nat.toDigits 10 m = Nat.toDigits 10 n := String.ofList_injective h
  rw [← Nat.ofDigitChars_ten_toDigits (n := m), hdigits, Nat.ofDigitChars_ten_toDigits]

/-- The session that is activated when `id` is closed: the one to the
right, else the new last one. -/
def neighbour {ι : Type*} [DecidableEq ι] (id : ι) (order : List ι) : Option ι :=
  let rest := order.erase id
  rest[min (order.idxOf id) (rest.length - 1)]?

theorem neighbour_eq {ι : Type*} [DecidableEq ι] {id : ι} {before after : List ι}
    (h : id ∉ before) :
    neighbour id (before ++ id :: after) = after.head?.or before.getLast? := by
  unfold neighbour
  rw [List.erase_append_right _ h, List.erase_cons_head, List.idxOf_append_of_notMem h,
    List.idxOf_cons_self, Nat.add_zero]
  dsimp only
  cases after with
  | nil =>
      rw [List.append_nil, List.head?_nil, Option.none_or, List.getLast?_eq_getElem?,
        Nat.min_eq_right (Nat.sub_le ..)]
  | cons next after => simp

theorem idxOf_map {ι κ : Type*} [DecidableEq ι] [DecidableEq κ] {f : ι → κ}
    (hf : Function.Injective f) (id : ι) (l : List ι) : (l.map f).idxOf (f id) = l.idxOf id := by
  induction l with
  | nil => rfl
  | cons a l ih =>
      rw [List.map_cons, List.idxOf_cons, List.idxOf_cons, ih]
      by_cases ha : a = id
      · simp [ha]
      · have hfa : f a ≠ f id := fun h => ha (hf h)
        rw [beq_eq_false_iff_ne.mpr ha, beq_eq_false_iff_ne.mpr hfa]

theorem neighbour_map {ι κ : Type*} [DecidableEq ι] [DecidableEq κ] {f : ι → κ}
    (hf : Function.Injective f) (id : ι) (order : List ι) :
    neighbour (f id) (order.map f) = (neighbour id order).map f := by
  unfold neighbour
  dsimp only
  rw [← List.map_erase hf, idxOf_map hf, List.length_map, List.getElem?_map]

structure SessionClass (σ : Type*) where
  new : σ
  resize : ℤ → ℤ → σ → σ
  start : σ → σ
  busy : σ → Bool

/-- `issued` is a ghost: the ids of all sessions so far. -/
structure SessionTable (σ : Type*) where
  sessions : AList fun _ : String => σ
  order : List String
  active : Option String
  counter : ℕ
  cols : ℤ
  rows : ℤ
  issued : List String

inductive TableOp where
  | create (activate : Bool)
  | switch (sessionId : String)
  | close (sessionId : String)
  | resize (cols rows : ℤ)
  | stopAll

namespace SessionTable

variable {σ : Type*} (cls : SessionClass σ)

def start : SessionTable σ where
  sessions := ∅
  order := []
  active := none
  counter := 0
  cols := 80
  rows := 24
  issued := []

/-- A method of one of the session objects. -/
def call (f : σ → σ) (sessionId : String) (s : SessionTable σ) : SessionTable σ :=
  match s.sessions.lookup sessionId with
  | none => s
  | some session => { s with sessions := s.sessions.insert sessionId (f session) }

/-- `create`: the new id, or `none` for the `ValueError` at the cap. -/
def create (activate : Bool) (s : SessionTable σ) : Option String × SessionTable σ :=
  if maxSessions ≤ s.sessions.keys.length then (none, s)
  else
    let sessionId := str (s.counter + 1)
    let session := cls.start (cls.resize s.cols s.rows cls.new)
    (some sessionId, { s with
      sessions := s.sessions.insert sessionId session
      order := s.order ++ [sessionId]
      active := if activate || s.active.isNone then some sessionId else s.active
      counter := s.counter + 1
      issued := s.issued ++ [sessionId] })

/-- `switch`: false if the id is unknown. -/
def switch (sessionId : String) (s : SessionTable σ) : Bool × SessionTable σ :=
  if sessionId ∉ s.sessions ∨ s.active = some sessionId then
    (decide (sessionId ∈ s.sessions), s)
  else
    (true, call (cls.resize s.cols s.rows) sessionId { s with active := some sessionId })

/-- `close`: false if the id is unknown, and `none` for the `ValueError`
of `index` or of `create`. -/
def close (sessionId : String) (s : SessionTable σ) : Option Bool × SessionTable σ :=
  if sessionId ∉ s.sessions then (some false, s)
  else if sessionId ∉ s.order then
    (none, { s with sessions := s.sessions.erase sessionId })
  else
    let wasActive : Bool := s.active = some sessionId
    let closed : SessionTable σ := { s with
      sessions := s.sessions.erase sessionId
      order := s.order.erase sessionId
      active := if wasActive then neighbour sessionId s.order else s.active }
    match closed.active with
    | none =>
      -- closing the last tab opens a fresh one
      match closed.create cls true with
      | (none, s) => (none, s)
      | (some _, s) => (some true, s)
    | some active =>
      if wasActive then (some true, (switch cls active { closed with active := none }).2)
      else (some true, closed)

/-- `resize` of the displayed session. -/
def resize (cols rows : ℤ) (s : SessionTable σ) : SessionTable σ :=
  if cols ≤ 0 ∨ rows ≤ 0 then s
  else
    let s := { s with cols := cols, rows := rows }
    match s.active with
    | none => s
    | some active => s.call (cls.resize cols rows) active

/-- `snapshot` without its constant; `none` is a `KeyError`. -/
def snapshot (s : SessionTable σ) : Option (List (String × Bool) × Option String) :=
  (s.order.mapM fun sessionId =>
    (s.sessions.lookup sessionId).map fun session => (sessionId, cls.busy session)).map
    fun sessions => (sessions, s.active)

def stopAll (s : SessionTable σ) : SessionTable σ :=
  { s with sessions := ∅, order := [], active := none }

def step (s : SessionTable σ) : TableOp → Option (SessionTable σ)
  | .create activate => some (s.create cls activate).2
  | .switch sessionId => some (s.switch cls sessionId).2
  | .close sessionId => some (s.close cls sessionId).2
  | .resize cols rows => some (s.resize cls cols rows)
  | .stopAll => some s.stopAll

/-! ## The invariant -/

/-- `_sessions` and `_order` hold the same ids, all of them issued by the
counter, in the order in which they were issued. -/
structure Listed (s : SessionTable σ) : Prop where
  keys : s.order.Perm s.sessions.keys
  issued : s.issued = (List.range' 1 s.counter).map str
  created : s.order.Sublist s.issued
  cap : s.order.length ≤ maxSessions

/-- A session is active unless there is none. -/
structure Consistent (s : SessionTable σ) : Prop extends Listed s where
  active : ∀ sessionId, s.active = some sessionId → sessionId ∈ s.order
  shown : s.active = none → s.order = []

variable {cls} {s : SessionTable σ} {sessionId : String}

theorem consistent_start : Consistent (start : SessionTable σ) where
  keys := .refl _
  issued := rfl
  created := .refl _
  cap := Nat.zero_le _
  active := nofun
  shown _ := rfl

theorem Listed.mem_iff (h : Listed s) : sessionId ∈ s.order ↔ sessionId ∈ s.sessions :=
  h.keys.mem_iff.trans AList.mem_keys.symm

theorem Listed.nodup_issued (h : Listed s) : s.issued.Nodup := by
  rw [h.issued]
  exact (List.nodup_range' ..).map str_injective

theorem Listed.nodup (h : Listed s) : s.order.Nodup :=
  h.nodup_issued.sublist h.created

/-- The next id was not issued before. -/
theorem Listed.fresh (h : Listed s) : str (s.counter + 1) ∉ s.issued := by
  rw [h.issued]
  intro hold
  obtain ⟨n, hn, heq⟩ := List.mem_map.mp hold
  obtain rfl := str_injective heq
  have hle := List.mem_range'_1.mp hn
  omega

/-- The table does not depend on which session is active. -/
theorem Listed.activate (h : Listed s) (active : Option String) :
    Listed { s with active := active } :=
  ⟨h.keys, h.issued, h.created, h.cap⟩

theorem call_frame (sessionId : String) (f : σ → σ) (s : SessionTable σ) :
    ∃ sessions, s.call f sessionId = { s with sessions := sessions } ∧
      sessions.keys.Perm s.sessions.keys := by
  unfold call
  cases hlookup : s.sessions.lookup sessionId with
  | none => exact ⟨s.sessions, rfl, .refl _⟩
  | some session =>
      refine ⟨_, rfl, ?_⟩
      rw [AList.keys_insert]
      refine (List.perm_cons_erase ?_).symm
      exact AList.mem_keys.mp (AList.lookup_isSome.mp (by rw [hlookup]; rfl))

/-! ## The operations keep it -/

theorem Listed.create (h : Listed s) (cls : SessionClass σ) (activate : Bool) :
    Listed (s.create cls activate).2 := by
  unfold SessionTable.create
  split
  · exact h
  · rename_i hcap
    have hnew : str (s.counter + 1) ∉ s.order := fun hmem => h.fresh (h.created.subset hmem)
    have hkeys : s.order.length = s.sessions.keys.length := h.keys.length_eq
    refine ⟨?_, ?_, h.created.append (.refl _), ?_⟩
    · rw [AList.keys_insert, List.erase_of_not_mem fun hmem => hnew (h.keys.mem_iff.mpr hmem)]
      exact (List.perm_append_singleton _ _).trans (h.keys.cons _)
    · rw [h.issued, List.range'_1_concat, List.map_append, Nat.add_comm 1]
      rfl
    · rw [List.length_append, List.length_singleton]
      omega

/-- What `create` does below the cap. -/
theorem create_eq (h : Listed s) (hcap : s.order.length < maxSessions) (cls : SessionClass σ)
    (activate : Bool) :
    ∃ sessions, s.create cls activate = (some (str (s.counter + 1)), { s with
      sessions := sessions
      order := s.order ++ [str (s.counter + 1)]
      active := if activate || s.active.isNone then some (str (s.counter + 1)) else s.active
      counter := s.counter + 1
      issued := s.issued ++ [str (s.counter + 1)] }) := by
  unfold SessionTable.create
  rw [if_neg]
  · exact ⟨_, rfl⟩
  · rw [← h.keys.length_eq]
    exact Nat.not_le_of_lt hcap

theorem consistent_create (h : Consistent s) (cls : SessionClass σ) (activate : Bool) :
    Consistent (s.create cls activate).2 := by
  by_cases hcap : s.order.length < maxSessions
  · have hlisted := h.toListed.create cls activate
    obtain ⟨sessions, hcreate⟩ := create_eq h.toListed hcap cls activate
    rw [hcreate] at hlisted ⊢
    refine { hlisted with active := fun i hi => ?_, shown := fun hnone => ?_ }
    · dsimp only at hi ⊢
      split at hi
      · exact Option.some.inj hi ▸ List.mem_append_right _ (List.mem_singleton_self _)
      · exact List.mem_append_left _ (h.active i hi)
    · dsimp only at hnone
      split at hnone
      · cases hnone
      · rename_i hactive
        rw [hnone] at hactive
        simp at hactive
  · unfold SessionTable.create
    rw [if_pos]
    · exact h
    · rw [← h.keys.length_eq]
      exact Nat.le_of_not_lt hcap

theorem Listed.call (h : Listed s) (f : σ → σ) : Listed (s.call f sessionId) := by
  obtain ⟨sessions, hcall, hkeys⟩ := call_frame sessionId f s
  rw [hcall]
  exact ⟨h.keys.trans hkeys.symm, h.issued, h.created, h.cap⟩

theorem call_order (sessionId : String) (f : σ → σ) (s : SessionTable σ) :
    (s.call f sessionId).order = s.order ∧ (s.call f sessionId).active = s.active := by
  obtain ⟨sessions, hcall, -⟩ := call_frame sessionId f s
  rw [hcall]
  exact ⟨rfl, rfl⟩

theorem consistent_call (h : Consistent s) (f : σ → σ) : Consistent (s.call f sessionId) := by
  obtain ⟨horder, hactive⟩ := call_order sessionId f s
  refine { h.toListed.call f with active := fun i hi => ?_, shown := fun hnone => ?_ }
  · rw [hactive] at hi
    exact horder ▸ h.active i hi
  · rw [hactive] at hnone
    exact horder ▸ h.shown hnone

/-- A switch that goes on, whatever was active before. -/
theorem switch_goes (h : Listed s) (cls : SessionClass σ) (hmem : sessionId ∈ s.order)
    (hother : s.active ≠ some sessionId) :
    Consistent (s.switch cls sessionId).2 ∧
      (s.switch cls sessionId).2.active = some sessionId ∧
      (s.switch cls sessionId).2.order = s.order := by
  unfold switch
  rw [if_neg (not_or.mpr ⟨not_not.mpr (h.mem_iff.mp hmem), hother⟩)]
  have hactive : Consistent { s with active := some sessionId } :=
    { h.activate _ with
      active := fun i hi => Option.some.inj hi ▸ hmem
      shown := nofun }
  exact ⟨consistent_call hactive _, (call_order ..).2, (call_order ..).1⟩

theorem consistent_switch (h : Consistent s) (cls : SessionClass σ) (sessionId : String) :
    Consistent (s.switch cls sessionId).2 := by
  by_cases hguard : sessionId ∉ s.sessions ∨ s.active = some sessionId
  · unfold switch
    rw [if_pos hguard]
    exact h
  · obtain ⟨hmem, hother⟩ := not_or.mp hguard
    exact (switch_goes h.toListed cls (h.mem_iff.mpr (not_not.mp hmem)) hother).1

/-! ## Closing -/

/-- The block of `close` under the lock. -/
theorem Listed.erase (h : Listed s) (sessionId : String) (active : Option String) :
    Listed { s with
      sessions := s.sessions.erase sessionId
      order := s.order.erase sessionId
      active := active } where
  keys := by
    rw [AList.keys_erase]
    exact h.keys.erase _
  issued := h.issued
  created := List.erase_sublist.trans h.created
  cap := Nat.le_trans List.erase_sublist.length_le h.cap

theorem erase_split {before after : List String} (h : Listed s)
    (horder : s.order = before ++ sessionId :: after) :
    sessionId ∉ before ∧ s.order.erase sessionId = before ++ after := by
  have hnodup := h.nodup
  rw [horder] at hnodup
  have hbefore : sessionId ∉ before := fun hmem =>
    List.disjoint_of_nodup_append hnodup hmem (List.mem_cons_self ..)
  refine ⟨hbefore, ?_⟩
  rw [horder, List.erase_append_right _ hbefore, List.erase_cons_head]

/-- `close` of a session that is there, up to the choice of the next one. -/
theorem close_eq (h : Listed s) (cls : SessionClass σ) (hmem : sessionId ∈ s.order)
    {closed : SessionTable σ}
    (hclosed : closed = { s with
      sessions := s.sessions.erase sessionId
      order := s.order.erase sessionId
      active := if s.active = some sessionId then neighbour sessionId s.order else s.active }) :
    s.close cls sessionId = match closed.active with
      | none => match closed.create cls true with
        | (none, s) => (none, s)
        | (some _, s) => (some true, s)
      | some active =>
        if s.active = some sessionId then
          (some true, (switch cls active { closed with active := none }).2)
        else (some true, closed) := by
  unfold close
  rw [if_neg (not_not.mpr (h.mem_iff.mp hmem)), if_neg (not_not.mpr hmem), hclosed]
  simp only [decide_eq_true_eq]

/-- Closing a background session leaves the rest alone. -/
theorem close_background (h : Consistent s) (cls : SessionClass σ) (hmem : sessionId ∈ s.order)
    (hother : s.active ≠ some sessionId) :
    s.close cls sessionId = (some true, { s with
      sessions := s.sessions.erase sessionId, order := s.order.erase sessionId }) := by
  rw [close_eq h.toListed cls hmem rfl, if_neg hother]
  cases hactive : s.active with
  | none =>
      rw [h.shown hactive] at hmem
      exact (List.not_mem_nil hmem).elim
  | some active =>
      rw [hactive] at hother
      simp only [if_neg hother]

/-- Closing the active session shows its neighbour. -/
theorem close_active {before after : List String} (h : Consistent s) (cls : SessionClass σ)
    (horder : s.order = before ++ sessionId :: after) (hactive : s.active = some sessionId)
    (hrest : before ++ after ≠ []) :
    (s.close cls sessionId).1 = some true ∧ Consistent (s.close cls sessionId).2 ∧
      (s.close cls sessionId).2.active = after.head?.or before.getLast? ∧
      (s.close cls sessionId).2.order = before ++ after := by
  obtain ⟨hbefore, herase⟩ := erase_split h.toListed horder
  have hmem : sessionId ∈ s.order := by simp [horder]
  have hnext : ∃ next ∈ before ++ after, neighbour sessionId s.order = some next := by
    rw [horder, neighbour_eq hbefore]
    cases after with
    | cons next after => exact ⟨next, by simp, rfl⟩
    | nil =>
        rw [List.append_nil] at hrest
        exact ⟨before.getLast hrest, by simp, List.getLast?_eq_getLast_of_ne_nil hrest⟩
  obtain ⟨next, hin, hneighbour⟩ := hnext
  rw [close_eq h.toListed cls hmem rfl, if_pos hactive, hneighbour]
  simp only [if_pos hactive]
  have hswitch := switch_goes (h.toListed.erase sessionId none) cls (herase ▸ hin) nofun
  refine ⟨trivial, hswitch.1, ?_, hswitch.2.2.trans herase⟩
  rw [hswitch.2.1, ← hneighbour, horder, neighbour_eq hbefore]

/-- Closing the last session opens a fresh one. -/
theorem close_last (h : Consistent s) (cls : SessionClass σ) (horder : s.order = [sessionId]) :
    (s.close cls sessionId).1 = some true ∧ Consistent (s.close cls sessionId).2 ∧
      (s.close cls sessionId).2.active = some (str (s.counter + 1)) ∧
      (s.close cls sessionId).2.order = [str (s.counter + 1)] := by
  have hmem : sessionId ∈ s.order := by simp [horder]
  have hactive : s.active = some sessionId := by
    cases hactive : s.active with
    | none => exact absurd (horder.symm.trans (h.shown hactive)) nofun
    | some active =>
        have hin := h.active active hactive
        rw [horder] at hin
        rw [List.mem_singleton.mp hin]
  have herase : s.order.erase sessionId = [] := by rw [horder, List.erase_cons_head]
  have hnone : neighbour sessionId s.order = none := by
    rw [horder]
    exact neighbour_eq (List.not_mem_nil)
  rw [close_eq h.toListed cls hmem rfl, if_pos hactive, hnone]
  have hclosed : Consistent { s with
      sessions := s.sessions.erase sessionId
      order := s.order.erase sessionId
      active := none } :=
    { h.toListed.erase sessionId none with
      active := nofun
      shown := fun _ => herase }
  have hcreated := consistent_create hclosed cls true
  obtain ⟨sessions, hcreate⟩ := create_eq hclosed.toListed
    (by dsimp only; rw [herase]; decide) cls true
  rw [hcreate] at hcreated
  simp only [hcreate]
  refine ⟨trivial, hcreated, rfl, ?_⟩
  rw [herase]
  rfl

theorem close_consistent (h : Consistent s) (cls : SessionClass σ) (hmem : sessionId ∈ s.order) :
    (s.close cls sessionId).1 = some true ∧ Consistent (s.close cls sessionId).2 ∧
      (s.close cls sessionId).2.order ≠ [] := by
  by_cases hactive : s.active = some sessionId
  · obtain ⟨before, after, horder⟩ := List.mem_iff_append.mp hmem
    by_cases hrest : before ++ after = []
    · obtain ⟨rfl, rfl⟩ := List.append_eq_nil_iff.mp hrest
      obtain ⟨htrue, hconsistent, -, hleft⟩ := close_last h cls horder
      exact ⟨htrue, hconsistent, by rw [hleft]; nofun⟩
    · obtain ⟨htrue, hconsistent, -, hleft⟩ := close_active h cls horder hactive hrest
      exact ⟨htrue, hconsistent, by rwa [hleft]⟩
  · rw [close_background h cls hmem hactive]
    have hshown : ∃ active, s.active = some active ∧ active ∈ s.order.erase sessionId := by
      cases hcurrent : s.active with
      | none =>
          rw [h.shown hcurrent] at hmem
          exact (List.not_mem_nil hmem).elim
      | some active =>
          refine ⟨active, rfl, (List.mem_erase_of_ne ?_).mpr (h.active active hcurrent)⟩
          rintro rfl
          exact hactive hcurrent
    obtain ⟨active, hcurrent, hin⟩ := hshown
    refine ⟨rfl, ?_, List.ne_nil_of_mem hin⟩
    exact { h.toListed.erase sessionId s.active with
      active := fun i hi => Option.some.inj (hcurrent.symm.trans hi) ▸ hin
      shown := fun hnone => absurd (hcurrent.symm.trans hnone) nofun }

theorem consistent_close (h : Consistent s) (cls : SessionClass σ) (sessionId : String) :
    Consistent (s.close cls sessionId).2 := by
  by_cases hmem : sessionId ∈ s.order
  · exact (close_consistent h cls hmem).2.1
  · unfold close
    rw [if_pos fun hin => hmem (h.mem_iff.mpr hin)]
    exact h

/-! ## Every run -/

theorem consistent_step (cls : SessionClass σ) (op : TableOp) {s' : SessionTable σ}
    (h : Consistent s) (hs : step cls s op = some s') : Consistent s' := by
  cases op with
  | create activate =>
      obtain rfl := Option.some.inj hs
      exact consistent_create h cls activate
  | switch sessionId =>
      obtain rfl := Option.some.inj hs
      exact consistent_switch h cls sessionId
  | close sessionId =>
      obtain rfl := Option.some.inj hs
      exact consistent_close h cls sessionId
  | resize cols rows =>
      obtain rfl := Option.some.inj hs
      have hsized : Consistent { s with cols := cols, rows := rows } :=
        ⟨⟨h.keys, h.issued, h.created, h.cap⟩, h.active, h.shown⟩
      unfold resize
      dsimp only
      split
      · exact h
      · split
        · exact hsized
        · exact consistent_call hsized _
  | stopAll =>
      obtain rfl := Option.some.inj hs
      exact ⟨⟨.refl _, h.issued, List.nil_sublist _, Nat.zero_le _⟩, nofun, fun _ => rfl⟩

/-- What holds of the table after every run, and of every `close`. -/
structure Sound (cls : SessionClass σ) (s : SessionTable σ) : Prop where
  nodup : s.order.Nodup
  keys : ∀ sessionId, sessionId ∈ s.order ↔ sessionId ∈ s.sessions
  created : s.order.Sublist s.issued
  cap : s.sessions.keys.length ≤ maxSessions
  neverReused : s.issued.Nodup
  shown : s.active = none → s.sessions.keys = []
  active : ∀ sessionId, s.active = some sessionId → sessionId ∈ s.sessions
  snapshot : (s.snapshot cls).isSome = true
  closed : ∀ sessionId ∈ s.sessions, (s.close cls sessionId).1 = some true ∧
    (s.close cls sessionId).2.order ≠ []
  background : ∀ sessionId ∈ s.sessions, s.active ≠ some sessionId →
    (s.close cls sessionId).2.active = s.active
  neighbour : ∀ before sessionId after, s.order = before ++ sessionId :: after →
    s.active = some sessionId → before ++ after ≠ [] →
    (s.close cls sessionId).2.active = after.head?.or before.getLast?

theorem Consistent.snapshot (h : Consistent s) (cls : SessionClass σ) :
    (s.snapshot cls).isSome = true := by
  have hall : ∀ order : List String, (∀ i ∈ order, i ∈ s.sessions) →
      ∃ listed, (order.mapM fun sessionId => (s.sessions.lookup sessionId).map fun session =>
        (sessionId, cls.busy session)) = some listed := by
    intro order hin
    induction order with
    | nil => exact ⟨[], rfl⟩
    | cons i order ih =>
        obtain ⟨session, hsession⟩ := Option.isSome_iff_exists.mp
          (AList.lookup_isSome.mpr (hin i (List.mem_cons_self ..)))
        obtain ⟨listed, hlisted⟩ := ih fun j hj => hin j (List.mem_cons_of_mem _ hj)
        exact ⟨(i, cls.busy session) :: listed, by simp [List.mapM_cons, hsession, hlisted]⟩
  obtain ⟨listed, hlisted⟩ := hall s.order fun i hi => h.mem_iff.mp hi
  unfold SessionTable.snapshot
  rw [hlisted]
  rfl

/-- **The session table** keeps its invariant over every sequence of
operations. -/
theorem table_is_sound (cls : SessionClass σ) (h : Reach (step cls) Free start s) :
    Sound cls s := by
  have hconsistent := h.invariant Consistent consistent_start
    fun _ op _ hs _ hstep => consistent_step cls op hs hstep
  exact {
    nodup := hconsistent.nodup
    keys := fun _ => hconsistent.mem_iff
    created := hconsistent.created
    cap := hconsistent.keys.length_eq ▸ hconsistent.cap
    neverReused := hconsistent.nodup_issued
    shown := fun hnone => List.nil_perm.mp (hconsistent.shown hnone ▸ hconsistent.keys)
    active := fun i hi => hconsistent.mem_iff.mp (hconsistent.active i hi)
    snapshot := hconsistent.snapshot cls
    closed := fun i hi =>
      have hclosed := close_consistent hconsistent cls (hconsistent.mem_iff.mpr hi)
      ⟨hclosed.1, hclosed.2.2⟩
    background := fun i hi hother => by
      rw [close_background hconsistent cls (hconsistent.mem_iff.mpr hi) hother]
    neighbour := fun _ _ _ horder hactive hrest =>
      (close_active hconsistent cls horder hactive hrest).2.2.1 }

/-- The middle one of three tabs is closed while it is shown. -/
theorem closed_between_is_sound : ∃ (cls : SessionClass Unit) (s : SessionTable Unit),
    Sound cls s ∧ s.order = ["1", "3"] ∧ s.active = some "3" := by
  let cls : SessionClass Unit := ⟨(), fun _ _ _ => (), fun _ => (), fun _ => false⟩
  obtain ⟨s, hs, hend⟩ := reach_of_replay
    (p := fun s : SessionTable Unit => decide (s.order = ["1", "3"] ∧ s.active = some "3"))
    (show (replay (step cls) Free start
      [.create true, .create false, .create true, .resize 100 30, .switch "2", .close "9",
        .close "2"]).map _ = some true by decide)
  exact ⟨cls, s, table_is_sound cls hs, of_decide_eq_true hend⟩

/-! ## One list stands for both -/

/-- The table is the one of a `Manager`, with its ids spelled out. -/
structure Models (s : SessionTable σ) (m : Manager) : Prop where
  order : s.order = m.order.map str
  active : s.active = m.active.map str
  counter : s.counter = m.counter

theorem Models.mem_iff {m : Manager} (hm : Models s m) {i : SessionId} :
    str i ∈ s.order ↔ i ∈ m.order := by
  rw [hm.order]
  exact List.mem_map_of_injective str_injective

theorem Models.active_iff {m : Manager} (hm : Models s m) {i : SessionId} :
    s.active = some (str i) ↔ m.active = some i := by
  rw [hm.active]
  exact Option.map_eq_some_iff.trans
    ⟨fun ⟨j, hj, heq⟩ => str_injective heq ▸ hj, fun hi => ⟨i, hi, rfl⟩⟩

/-- `create` is that of `Manager`. -/
theorem models_create {m : Manager} (h : Listed s) (hm : Models s m) (cls : SessionClass σ)
    (activate : Bool) :
    match m.create activate with
    | none => s.create cls activate = (none, s)
    | some (i, m') => (s.create cls activate).1 = some (str i) ∧
        Models (s.create cls activate).2 m' := by
  have hlength : s.order.length = m.order.length := by rw [hm.order, List.length_map]
  unfold Manager.create
  by_cases hcap : maxSessions ≤ m.order.length
  · rw [if_pos hcap]
    unfold SessionTable.create
    rw [if_pos (h.keys.length_eq ▸ hlength ▸ hcap)]
  · rw [if_neg hcap]
    obtain ⟨sessions, hcreate⟩ := create_eq h (hlength ▸ Nat.lt_of_not_le hcap) cls activate
    rw [hcreate, hm.counter]
    refine ⟨rfl, ?_, ?_, rfl⟩
    · simp [hm.order]
    · dsimp only
      rw [hm.active, Option.isNone_map]
      split <;> rfl

/-- So is `switch`. -/
theorem models_switch {m : Manager} (h : Listed s) (hm : Models s m) (cls : SessionClass σ)
    (i : SessionId) : Models (s.switch cls (str i)).2 (m.switch (some i)).2 := by
  unfold switch Manager.switch
  dsimp only
  have hguard : (str i ∉ s.sessions ∨ s.active = some (str i)) ↔
      (i ∉ m.order ∨ m.active = some i) := by
    rw [← h.mem_iff, hm.mem_iff, hm.active_iff]
  by_cases hstays : i ∉ m.order ∨ m.active = some i
  · rw [if_pos (hguard.mpr hstays), if_pos hstays]
    exact hm
  · rw [if_neg fun hleft => hstays (hguard.mp hleft), if_neg hstays]
    dsimp only
    obtain ⟨sessions, hcall, -⟩ := call_frame (str i)
      (cls.resize s.cols s.rows) { s with active := some (str i) }
    rw [hcall]
    exact ⟨hm.order, rfl, hm.counter⟩

/-- The whole of `close` on the one list. -/
def closeTab (i : SessionId) (m : Manager) : Manager :=
  match m.close i with
  | none => m
  | some (wasActive, m') =>
    match m'.active with
    | none => ((m'.create true).map Prod.snd).getD m'
    | some active =>
      if wasActive then (Manager.switch (some active) { m' with active := none }).2 else m'

/-- The first half of `close`, which takes the session out. -/
theorem Models.erase {m m' : Manager} {i : SessionId} {wasActive : Bool} (hm : Models s m)
    (hclose : m.close i = some (wasActive, m')) :
    Models { s with
      sessions := s.sessions.erase (str i)
      order := s.order.erase (str i)
      active := if s.active = some (str i) then neighbour (str i) s.order else s.active } m' := by
  obtain ⟨-, -, horder, hcounter, hactive⟩ := Manager.close_eq hclose
  refine ⟨?_, ?_, hm.counter.trans hcounter.symm⟩
  · rw [hm.order, horder, List.map_erase str_injective]
  · simp only [hm.active_iff, hactive]
    split
    · rw [hm.order, neighbour_map str_injective]
      rfl
    · exact hm.active

/-- And so is `close`. -/
theorem models_close {m : Manager} (h : Listed s) (hm : Models s m) (cls : SessionClass σ)
    (i : SessionId) : Models (s.close cls (str i)).2 (closeTab i m) := by
  unfold closeTab
  cases hclose : m.close i with
  | none =>
      have hout : i ∉ m.order := by
        intro hmem
        rw [Manager.close, if_neg (not_not.mpr hmem)] at hclose
        cases hclose
      unfold close
      rw [if_pos fun hin => hout (hm.mem_iff.mp (h.mem_iff.mpr hin))]
      exact hm
  | some closed =>
      obtain ⟨wasActive, m'⟩ := closed
      dsimp only
      obtain ⟨hmem, hwas, -, -, -⟩ := Manager.close_eq hclose
      have hmodels := hm.erase hclose
      rw [close_eq h cls (hm.mem_iff.mpr hmem) rfl, hmodels.active]
      cases hnext : m'.active with
      | none =>
          dsimp only [Option.map_none]
          have hcreate := models_create (h.erase (str i) _) hmodels cls true
          cases hfresh : m'.create true with
          | none =>
              rw [hfresh] at hcreate
              rw [hcreate]
              exact hmodels
          | some created =>
              obtain ⟨j, m''⟩ := created
              rw [hfresh] at hcreate
              obtain ⟨hid, hafter⟩ := hcreate
              split
              · rename_i hnone
                rw [hnone] at hid
                cases hid
              · rename_i hsome
                rw [hsome] at hafter
                exact hafter
      | some active =>
          dsimp only [Option.map_some]
          by_cases hthis : s.active = some (str i)
          · rw [if_pos hthis, hwas, decide_eq_true (hm.active_iff.mp hthis)]
            have hcleared : Models { s with
                sessions := s.sessions.erase (str i)
                order := s.order.erase (str i)
                active := none } { m' with active := none } :=
              ⟨hmodels.order, rfl, hmodels.counter⟩
            exact models_switch (h.erase (str i) none) hcleared cls active
          · rw [if_neg hthis, hwas, decide_eq_false fun hi => hthis (hm.active_iff.mpr hi)]
            exact hmodels

end SessionTable

end Zmux
