import Zmux.FrameOrder
import Zmux.PtyFilter
import Zmux.TabScreen

/-!
# From the shells to the screen

All that the output of a shell passes: `_emit` of its session, which cuts
out the storage OSC and records the scrollback; the manager, which sends
on what the active session emits and on a new tab, a switch or a close
repaints; the socket; and the page, where each frame is read, queued,
thrown away with the queue if a reset follows, and handed to xterm with
the next animation frame.

`output_arrives`: whatever is under way arrives, and when nothing is,
xterm has been given, since it was last cleared, what the shell of the
active tab has printed, the last mebibyte of it or more, and no byte of
another tab. A reset sequence that a shell prints itself may throw away
what stands before it (`Tabs.Covers`). The operations of the manager come
one at a time, and frames are read in turn; what happens otherwise is in
`Switching` and in `Output`.
-/

namespace Zmux

open PtyFilter (Exact emitAll exact_start lastBytes recordScrollback_lastBytes scrollbackMaxSize)

namespace Output

/-! ## The page -/

/-- What xterm has been given since it was last cleared. -/
def paintTerm (given : List UInt8) : TermEvent → List UInt8
  | .wrote frame => given ++ frame.1
  | .cleared _ => []

def given (s : Output) : List UInt8 := s.shown.foldl paintTerm []

def queued (s : Output) : List UInt8 := (s.writeQueue.map Prod.fst).flatten

/-- What a frame makes of what is on the screen. -/
def view (given data : List UInt8) : List UInt8 :=
  if isSessionScreenReset data then data else given ++ data

/-- What is read and queued, and what is still to be read, make the screen
of all frames. -/
structure Draws (s : Output) : Prop where
  frames : (s.reading.map Prod.fst).foldl view (s.given ++ s.queued) = s.frames.foldl view []
  pending : s.writeQueue ≠ [] → s.writeFlushPending = true

variable {s s' : Output}

theorem draws_start : Draws start := ⟨rfl, fun h => absurd rfl h⟩

theorem given_wrote (given : List UInt8) (queue : List Frame) :
    (queue.map TermEvent.wrote).foldl paintTerm given = given ++ (queue.map Prod.fst).flatten := by
  induction queue generalizing given with
  | nil => simp
  | cons frame queue ih =>
      rw [List.map_cons, List.foldl_cons, ih, paintTerm, List.map_cons, List.flatten_cons,
        List.append_assoc]

theorem given_clear (s : Output) (place : ℕ) :
    (s.clearPreviousSessionBuffer place).given = [] := by
  simp [given, clearPreviousSessionBuffer, paintTerm]

theorem queued_push (s : Output) (frame : Frame) : (s.push frame).queued = s.queued ++ frame.1 := by
  rw [push, queued]
  dsimp only
  split_ifs with hempty
  · rw [hempty, List.append_nil]
    rfl
  · simp [queued]

/-- The oldest frame is drawn as it should be. -/
theorem writeTerminalOutput_view (s : Output) (frame : Frame) :
    (s.writeTerminalOutput frame).given ++ (s.writeTerminalOutput frame).queued
      = view (s.given ++ s.queued) frame.1 := by
  rw [writeTerminalOutput, view]
  split_ifs with hreset
  · have hgiven : ((s.clearPreviousSessionBuffer frame.2).push frame).given = [] :=
      given_clear s frame.2
    rw [queued_push, hgiven]
    rfl
  · have hgiven : (s.push frame).given = s.given := rfl
    rw [queued_push, hgiven, List.append_assoc]

@[simp] theorem writeTerminalOutput_reading (s : Output) (frame : Frame) :
    (s.writeTerminalOutput frame).reading = s.reading := by
  rw [writeTerminalOutput]
  split <;> rfl

@[simp] theorem writeTerminalOutput_frames (s : Output) (frame : Frame) :
    (s.writeTerminalOutput frame).frames = s.frames := by
  rw [writeTerminalOutput]
  split <;> rfl

@[simp] theorem writeTerminalOutput_pending (s : Output) (frame : Frame) :
    (s.writeTerminalOutput frame).writeFlushPending = true := by
  rw [writeTerminalOutput]
  split <;> rfl

theorem draws_step (a : OutputStep) (h : Draws s) (hok : Oldest s a) (hs : step s a = some s') :
    Draws s' := by
  cases a with
  | message payload =>
      obtain rfl := Option.some.inj hs
      refine ⟨?_, h.pending⟩
      have hframes := h.frames
      simp only [List.map_append, List.foldl_append]
      exact congrArg (view · payload) hframes
  | fulfilled k =>
      obtain rfl : k = 0 := hok
      cases hreading : s.reading with
      | nil =>
          rw [step, hreading] at hs
          cases hs
      | cons frame rest =>
          rw [step, hreading] at hs
          obtain rfl := Option.some.inj hs
          refine ⟨?_, fun _ => writeTerminalOutput_pending _ _⟩
          have hframes := h.frames
          rw [hreading, List.map_cons, List.foldl_cons] at hframes
          rw [writeTerminalOutput_view, writeTerminalOutput_reading, writeTerminalOutput_frames]
          exact hframes
  | animationFrame =>
      rw [step] at hs
      split at hs
      · obtain rfl := Option.some.inj hs
        have hgiven : s.flushTermWrite.given = s.given ++ s.queued := by
          rw [given, flushTermWrite, List.foldl_append]
          exact given_wrote s.given s.writeQueue
        refine ⟨?_, fun hqueue => absurd rfl hqueue⟩
        have hqueued : s.flushTermWrite.queued = [] := rfl
        rw [hgiven, hqueued, List.append_nil]
        exact h.frames
      · cases hs

theorem frames_step {a : OutputStep} (hs : step s a = some s') :
    s'.frames = match a with
      | .message payload => s.frames ++ [payload]
      | .fulfilled _ | .animationFrame => s.frames := by
  cases a with
  | message payload =>
      obtain rfl := Option.some.inj hs
      rfl
  | fulfilled k =>
      rw [step] at hs
      split at hs
      · cases hs
      · obtain rfl := Option.some.inj hs
        exact writeTerminalOutput_frames _ _
  | animationFrame =>
      rw [step] at hs
      split at hs
      · obtain rfl := Option.some.inj hs
        rfl
      · cases hs

/-! ### What is under way arrives -/

/-- Frames are read in turn, and no new one arrives. -/
def Finishing (_ : Output) : OutputStep → Prop
  | .fulfilled k => k = 0
  | .animationFrame => True
  | .message _ => False

theorem animationFrame_step (h : Draws s) (hreading : s.reading = []) :
    ∃ s', Reach step Finishing s s' ∧ s'.reading = [] ∧ s'.writeQueue = [] := by
  by_cases hqueue : s.writeQueue = []
  · exact ⟨s, .start, hreading, hqueue⟩
  · refine ⟨s.flushTermWrite, .next .start (a := .animationFrame) trivial ?_, hreading, rfl⟩
    rw [step, if_pos (h.pending hqueue)]

/-- The page draws all that has arrived. -/
theorem settles (h : Draws s) :
    ∃ s', Reach step Finishing s s' ∧ s'.reading = [] ∧ s'.writeQueue = [] := by
  generalize hlength : s.reading.length = n
  induction n generalizing s with
  | zero => exact animationFrame_step h (List.eq_nil_of_length_eq_zero hlength)
  | succ n ih =>
      cases hreading : s.reading with
      | nil =>
          rw [hreading] at hlength
          cases hlength
      | cons frame rest =>
          have hs : step s (.fulfilled 0)
              = some ({ s with reading := rest }.writeTerminalOutput frame) := by
            rw [step, hreading]
            rfl
          rw [hreading] at hlength
          have hrest :
              ({ s with reading := rest }.writeTerminalOutput frame).reading.length = n := by
            rw [writeTerminalOutput_reading]
            exact Nat.succ.inj hlength
          obtain ⟨s', hreach, hdone⟩ := ih (draws_step (.fulfilled 0) h rfl hs) hrest
          have hok : Finishing s (.fulfilled 0) := rfl
          exact ⟨s', (Reach.next .start hok hs).trans hreach, hdone⟩

end Output

/-! ## The manager -/

namespace Tabs

/-- The payload of a broadcast. -/
def frame : Event UInt8 → List UInt8
  | .reset => Output.sessionReset
  | .output data => data

/-- The screen of the page has all of `whole`, or else what it has contains
a reset, and what is missing came before. -/
structure Covers (given whole : List UInt8) : Prop where
  suffix : given <:+ whole
  missing : given ≠ whole → Output.sessionReset <:+: given

theorem covers_all (whole : List UInt8) : Covers whole whole :=
  ⟨List.suffix_refl whole, fun h => absurd rfl h⟩

theorem Covers.append {given whole : List UInt8} (h : Covers given whole) (data : List UInt8) :
    Covers (Output.view given data) (whole ++ data) := by
  rw [Output.view]
  split_ifs with hreset
  · exact ⟨List.suffix_append whole data, fun _ => of_decide_eq_true hreset⟩
  · obtain ⟨before, rfl⟩ := h.suffix
    refine ⟨⟨before, by rw [List.append_assoc]⟩, fun hne => ?_⟩
    exact (h.missing fun heq => hne (heq ▸ rfl)).trans (List.infix_append' [] given data)

/-- The frames of the log make of the page what it broadcast last. -/
theorem covers_log (log : List (Event UInt8)) :
    Covers ((log.map frame).foldl Output.view [])
      ((if Event.reset ∈ log then Output.sessionReset else []) ++ screen log) := by
  induction log using List.reverseRecOn with
  | nil => exact covers_all []
  | append_singleton log e ih =>
      rw [List.map_append, List.foldl_append, screen_snoc]
      cases e with
      | reset =>
          have hreset : Output.isSessionScreenReset Output.sessionReset = true :=
            decide_eq_true (List.infix_refl _)
          have hmem : Event.reset ∈ log ++ [Event.reset] := List.mem_concat_self ..
          rw [if_pos hmem, paint, List.append_nil, List.map_singleton, List.foldl_cons,
            List.foldl_nil, frame, Output.view, if_pos hreset]
          exact covers_all _
      | output data =>
          have hmem : Event.reset ∈ log ++ [Event.output data] ↔ Event.reset ∈ log := by simp
          rw [paint, ← List.append_assoc]
          simp only [hmem]
          exact ih.append data

/-! ### What the sessions have printed -/

/-- A part of what was printed, up to its end, that has the last mebibyte. -/
structure Recent (text printed : List UInt8) : Prop where
  suffix : text <:+ printed
  enough : min scrollbackMaxSize printed.length ≤ text.length

theorem recent_lastBytes (printed : List UInt8) :
    Recent (lastBytes scrollbackMaxSize printed) printed := by
  refine ⟨List.drop_suffix _ _, ?_⟩
  rw [lastBytes, List.length_drop]
  omega

theorem Recent.append {text printed : List UInt8} (h : Recent text printed) (more : List UInt8) :
    Recent (text ++ more) (printed ++ more) := by
  obtain ⟨before, rfl⟩ := h.suffix
  refine ⟨⟨before, by rw [List.append_assoc]⟩, ?_⟩
  have henough := h.enough
  rw [List.length_append] at henough
  rw [List.length_append, List.length_append, List.length_append]
  omega

/-- What the shells have printed, chunk by chunk. -/
abbrev Printed := SessionId → List (List UInt8)

def Printed.next (printed : Printed) : TabOp → Printed
  | .emit sessionId data => Function.update printed sessionId (printed sessionId ++ [data])
  | _ => printed

/-- The sessions have kept what they should, and the screen has what the
active one has printed. -/
structure Kept (s : Tabs) (printed : Printed) : Prop where
  session : ∀ i, s.session i = ⟨(emitAll (printed i)).tail, (emitAll (printed i)).scrollback⟩
  fresh : ∀ i, s.manager.counter < i → printed i = []
  recent : ∀ i, s.manager.active = some i → Recent (s.base ++ s.since) (emitAll (printed i)).emitted

variable {s s' : Tabs} {printed : Printed}

theorem exact_printed (chunks : List (List UInt8)) : Exact (emitAll chunks) chunks.flatten :=
  PtyFilter.exact_emitAll chunks exact_start

/-- The scrollback of a session is recent. -/
theorem Kept.scrollback (h : Kept s printed) (i : SessionId) :
    Recent ((s.session i).scrollback ++ []) (emitAll (printed i)).emitted := by
  rw [h.session, List.append_nil]
  dsimp only
  rw [(exact_printed (printed i)).scrollback]
  exact recent_lastBytes _

theorem kept_start : Kept start fun _ => [] where
  session _ := rfl
  fresh _ _ := rfl
  recent _ hactive := by cases hactive

/-- A new session has printed nothing, and shows nothing if it is active. -/
theorem create_fields {activate : Bool} {sessionId : SessionId} {m : Manager}
    (hcreate : s.manager.create activate = some (sessionId, m)) :
    (s.create activate).manager = m ∧
      (s.create activate).session = Function.update s.session sessionId ⟨[], []⟩ ∧
      (s.create activate).base ++ (s.create activate).since
        = if m.active = some sessionId then [] else s.base ++ s.since := by
  rw [create, hcreate]
  dsimp only
  split_ifs <;> simp [activated, broadcast]

theorem kept_create (h : Kept s printed) (activate : Bool) :
    Kept (s.create activate) printed := by
  cases hcreate : s.manager.create activate with
  | none => simpa only [create, hcreate] using h
  | some created =>
      obtain ⟨sessionId, m⟩ := created
      obtain ⟨hid, -, hcounter, hactive⟩ := Manager.create_eq hcreate
      obtain ⟨hmanager, hsession, hshown⟩ := create_fields hcreate
      have hnew : printed sessionId = [] := h.fresh sessionId (hid ▸ Nat.lt_succ_self _)
      refine ⟨fun i => ?_, fun i hi => ?_, fun i hi => ?_⟩
      · rw [hsession]
        by_cases heq : i = sessionId
        · rw [heq, Function.update_self, hnew]
          rfl
        · rw [Function.update_of_ne heq]
          exact h.session i
      · rw [hmanager, hcounter, hid] at hi
        exact h.fresh i (Nat.lt_of_succ_lt hi)
      · rw [hmanager] at hi
        rw [hshown]
        by_cases heq : i = sessionId
        · rw [if_pos (heq ▸ hi), heq, hnew]
          exact recent_lastBytes []
        · have hold : s.manager.active = some i := by
            rw [hi] at hactive
            split_ifs at hactive
            · exact absurd (Option.some.inj hactive) heq
            · exact hactive.symm
          rw [if_neg fun hsame => heq (Option.some.inj (hi.symm.trans hsame))]
          exact h.recent i hold

theorem switch_fields {target : Option SessionId} {sessionId : SessionId} {m : Manager}
    (hswitch : s.manager.switch target = (some sessionId, m)) :
    (s.switch target).manager = m ∧ (s.switch target).session = s.session ∧
      (s.switch target).base ++ (s.switch target).since
        = (s.session sessionId).scrollback ++ [] := by
  rw [switch, hswitch]
  dsimp only
  split_ifs <;> exact ⟨rfl, rfl, rfl⟩

theorem kept_switch (h : Kept s printed) (target : Option SessionId) :
    Kept (s.switch target) printed := by
  rcases Manager.switch_cases target s.manager with ⟨hsame, -⟩ | ⟨sessionId, rfl, -, -, hswitch⟩
  · simpa only [switch, hsame] using h
  · obtain ⟨hmanager, hsession, hshown⟩ := switch_fields hswitch
    refine ⟨fun i => ?_, fun i hi => ?_, fun i hi => ?_⟩
    · rw [hsession]
      exact h.session i
    · rw [hmanager] at hi
      exact h.fresh i hi
    · rw [hmanager] at hi
      obtain rfl := Option.some.inj hi
      rw [hshown]
      exact h.scrollback sessionId

theorem Kept.manager (h : Kept s printed) {m : Manager} (hcounter : m.counter = s.manager.counter)
    (hactive : ∀ i, m.active = some i → s.manager.active = some i) :
    Kept { s with manager := m } printed where
  session := h.session
  fresh i hi := h.fresh i (hcounter ▸ hi)
  recent i hi := h.recent i (hactive i hi)

theorem kept_close (h : Kept s printed) (sessionId : SessionId) :
    Kept (s.close sessionId) printed := by
  cases hclose : s.manager.close sessionId with
  | none => simpa only [close, hclose] using h
  | some closed =>
      obtain ⟨wasActive, m⟩ := closed
      obtain ⟨-, hwas, -, hcounter, hactive⟩ := Manager.close_eq hclose
      rw [close, hclose]
      dsimp only
      split
      · rename_i hnone
        exact kept_create (h.manager hcounter fun i hi => by cases hnone.symm.trans hi) true
      · rename_i active hsome
        split_ifs with hthis
        · exact kept_switch (@Kept.manager _ _ h { m with active := none } hcounter
            fun i hi => by cases hi) (some active)
        · refine h.manager hcounter fun i hi => ?_
          rw [hwas, decide_eq_true_eq] at hthis
          rw [if_neg hthis] at hactive
          exact hactive.symm.trans hi

theorem kept_emit (h : Kept s printed) {sessionId : SessionId} (data : List UInt8)
    (hcreated : sessionId ≤ s.manager.counter) :
    Kept (s.emit scrollbackMaxSize sessionId data) (printed.next (.emit sessionId data)) := by
  have hemit : emitAll (printed sessionId ++ [data])
      = PtyFilter.emit (emitAll (printed sessionId)) data := List.foldl_concat ..
  have hother {i : SessionId} (hne : i ≠ sessionId) :
      printed.next (.emit sessionId data) i = printed i := Function.update_of_ne hne ..
  have hself : printed.next (.emit sessionId data) sessionId = printed sessionId ++ [data] :=
    Function.update_self ..
  have hfresh : ∀ i, s.manager.counter < i → printed.next (.emit sessionId data) i = [] :=
    fun i hi => (hother (Nat.ne_of_gt (Nat.lt_of_le_of_lt hcreated hi))).trans (h.fresh i hi)
  have hsession := h.session sessionId
  rcases hfilter : filterPtyControls id ((s.session sessionId).tail ++ data) with ⟨out, tail, n⟩
  have hfilter' := hfilter
  rw [hsession] at hfilter'
  dsimp only at hfilter'
  rw [PtyFilter.emit, hfilter'] at hemit
  dsimp only at hemit
  rw [emit, hfilter]
  dsimp only
  have hsessions {session : Session} (hnew : session = ⟨(emitAll (printed sessionId ++
      [data])).tail, (emitAll (printed sessionId ++ [data])).scrollback⟩) (i : SessionId) :
      Function.update s.session sessionId session i
        = ⟨(emitAll (printed.next (.emit sessionId data) i)).tail,
          (emitAll (printed.next (.emit sessionId data) i)).scrollback⟩ := by
    by_cases heq : i = sessionId
    · rw [heq, Function.update_self, hself, hnew]
    · rw [Function.update_of_ne heq, hother heq]
      exact h.session i
  split_ifs at hemit ⊢ with hempty hactive
  · refine ⟨hsessions (by rw [hemit, hsession]), hfresh, fun i hi => ?_⟩
    by_cases heq : i = sessionId
    · rw [heq, hself, hemit]
      exact h.recent sessionId (heq ▸ hi)
    · rw [hother heq]
      exact h.recent i hi
  · refine ⟨hsessions (by rw [hemit, hsession]), hfresh, fun i hi => ?_⟩
    obtain rfl : sessionId = i := Option.some.inj (hactive.symm.trans hi)
    rw [hself, hemit, ← List.append_assoc]
    exact (h.recent sessionId hactive).append out
  · refine ⟨hsessions (by rw [hemit, hsession]), hfresh, fun i hi => ?_⟩
    rw [hother fun heq => hactive (heq ▸ hi)]
    exact h.recent i hi

theorem kept_step {op : TabOp} (h : Kept s printed) (hs : step scrollbackMaxSize s op = some s') :
    Kept s' (printed.next op) := by
  cases op with
  | create activate =>
      obtain rfl := Option.some.inj hs
      exact kept_create h activate
  | switch sessionId =>
      obtain rfl := Option.some.inj hs
      exact kept_switch h _
  | close sessionId =>
      obtain rfl := Option.some.inj hs
      exact kept_close h sessionId
  | emit sessionId data =>
      rw [step] at hs
      split at hs
      · rename_i hcreated
        obtain rfl := Option.some.inj hs
        exact kept_emit h data hcreated.2
      · cases hs

/-! ### What is broadcast -/

theorem create_log (activate : Bool) (s : Tabs) : s.log <+: (s.create activate).log := by
  rw [create]
  split
  · exact List.prefix_refl _
  · dsimp only
    split_ifs <;> simp [activated, broadcast]

theorem switch_log (target : Option SessionId) (s : Tabs) : s.log <+: (s.switch target).log := by
  rw [switch]
  split
  · exact List.prefix_refl _
  · dsimp only
    split_ifs <;> simp [activated, broadcast]

theorem close_log (sessionId : SessionId) (s : Tabs) : s.log <+: (s.close sessionId).log := by
  rw [close]
  split
  · exact List.prefix_refl _
  · rename_i wasActive m _
    dsimp only
    split
    · exact create_log true { s with manager := m }
    · split_ifs
      · exact switch_log _ { s with manager := { m with active := none } }
      · exact List.prefix_refl _

theorem emit_log (maxSize : ℕ) (sessionId : SessionId) (data : List UInt8) (s : Tabs) :
    s.log <+: (s.emit maxSize sessionId data).log := by
  rw [emit]
  dsimp only
  split_ifs <;> simp [broadcast]

/-- What was broadcast stays broadcast. -/
theorem log_step {maxSize : ℕ} {op : TabOp} (hs : step maxSize s op = some s') :
    s.log <+: s'.log := by
  cases op with
  | create activate =>
      obtain rfl := Option.some.inj hs
      exact create_log activate s
  | switch sessionId =>
      obtain rfl := Option.some.inj hs
      exact switch_log _ s
  | close sessionId =>
      obtain rfl := Option.some.inj hs
      exact close_log sessionId s
  | emit sessionId data =>
      rw [step] at hs
      split at hs
      · obtain rfl := Option.some.inj hs
        exact emit_log maxSize sessionId data s
      · cases hs

end Tabs

/-! ## The path -/

/-- `printed` is a ghost. -/
structure OutputPath where
  tabs : Tabs
  printed : Tabs.Printed
  /-- The frames on the way to the page. -/
  wire : List (List UInt8)
  page : Output

inductive OutputPathStep where
  | server (op : TabOp)
  /-- The page receives the next frame. -/
  | arrive
  | fulfilled (k : ℕ)
  | animationFrame

namespace OutputPath

def start : OutputPath where
  tabs := .start
  printed _ := []
  wire := []
  page := .start

def step (s : OutputPath) : OutputPathStep → Option OutputPath
  | .server op =>
    (s.tabs.step scrollbackMaxSize op).map fun tabs => { s with
      tabs := tabs
      printed := s.printed.next op
      wire := s.wire ++ (tabs.log.drop s.tabs.log.length).map Tabs.frame }
  | .arrive =>
    match s.wire with
    | [] => none
    | payload :: wire =>
      (s.page.step (.message payload)).map fun page => { s with wire := wire, page := page }
  | .fulfilled k => (s.page.step (.fulfilled k)).map fun page => { s with page := page }
  | .animationFrame => (s.page.step .animationFrame).map fun page => { s with page := page }

/-- The last tab is closed only with nothing on the screen, and frames are
read in turn. -/
def InTurn (s : OutputPath) : OutputPathStep → Prop
  | .server op => s.tabs.KeepsTab op
  | .fulfilled k => k = 0
  | .arrive | .animationFrame => True

instance (s : OutputPath) (a : OutputPathStep) : Decidable (InTurn s a) :=
  match a with
  | .server op => inferInstanceAs (Decidable (s.tabs.KeepsTab op))
  | .fulfilled k => inferInstanceAs (Decidable (k = 0))
  | .arrive | .animationFrame => instDecidableTrue

/-- Nothing is under way. -/
structure Settled (s : OutputPath) : Prop where
  wire : s.wire = []
  reading : s.page.reading = []
  queue : s.page.writeQueue = []

structure Carries (s : OutputPath) : Prop where
  consistent : s.tabs.Consistent
  kept : s.tabs.Kept s.printed
  wire : s.page.frames ++ s.wire = s.tabs.log.map Tabs.frame
  draws : s.page.Draws

variable {s s' : OutputPath}

theorem carries_start : Carries start where
  consistent := Tabs.consistent_start
  kept := Tabs.kept_start
  wire := rfl
  draws := Output.draws_start

theorem carries_page (h : Carries s) {a : OutputStep} {page : Output} (hok : Output.Oldest s.page a)
    (hs : s.page.step a = some page) {wire : List (List UInt8)}
    (hwire : page.frames ++ wire = s.page.frames ++ s.wire) :
    Carries { s with wire := wire, page := page } where
  consistent := h.consistent
  kept := h.kept
  wire := hwire.trans h.wire
  draws := Output.draws_step a h.draws hok hs

theorem carries_step (a : OutputPathStep) (h : Carries s) (hok : InTurn s a)
    (hs : step s a = some s') : Carries s' := by
  cases a with
  | server op =>
      obtain ⟨tabs, htabs, rfl⟩ := Option.map_eq_some_iff.mp hs
      refine ⟨Tabs.consistent_step op h.consistent hok htabs, Tabs.kept_step h.kept htabs, ?_,
        h.draws⟩
      obtain ⟨new, hnew⟩ := Tabs.log_step htabs
      dsimp only
      rw [← List.append_assoc, h.wire, ← hnew, List.drop_left, List.map_append]
  | arrive =>
      rw [step] at hs
      split at hs
      · cases hs
      · rename_i payload wire hwire
        obtain ⟨page, hpage, rfl⟩ := Option.map_eq_some_iff.mp hs
        have hframes : page.frames = s.page.frames ++ [payload] := by
          obtain rfl := Option.some.inj hpage
          rfl
        exact carries_page h (a := .message payload) trivial hpage (by
          rw [hframes, hwire, List.append_assoc, List.singleton_append])
  | fulfilled k =>
      obtain ⟨page, hpage, rfl⟩ := Option.map_eq_some_iff.mp hs
      have hframes : page.frames = s.page.frames := Output.frames_step hpage
      exact carries_page h (a := .fulfilled k) hok hpage (by rw [hframes])
  | animationFrame =>
      obtain ⟨page, hpage, rfl⟩ := Option.map_eq_some_iff.mp hs
      have hframes : page.frames = s.page.frames := Output.frames_step hpage
      exact carries_page h (a := .animationFrame) trivial hpage (by rw [hframes])

theorem carries_of_reach (h : Reach step InTurn start s) : Carries s :=
  h.invariant Carries carries_start fun _ a _ hs hok hnext => carries_step a hs hok hnext

/-! ### What arrives -/

/-- What the page does by itself it does on the path. -/
theorem reach_page {page : Output} (h : Reach Output.step Output.Finishing s.page page) :
    Reach step InTurn s { s with page := page } := by
  induction h with
  | start => exact .start
  | @next page page' a _ hok hnext ih =>
      cases a with
      | message payload => exact hok.elim
      | fulfilled k =>
          refine ih.next (a := .fulfilled k) hok ?_
          rw [step, hnext]
          rfl
      | animationFrame =>
          refine ih.next (a := .animationFrame) trivial ?_
          rw [step, hnext]
          rfl

theorem reach_arrived (s : OutputPath) :
    ∃ s', Reach step InTurn s s' ∧ s'.wire = [] ∧ s'.tabs = s.tabs := by
  generalize hwire : s.wire = wire
  induction wire generalizing s with
  | nil => exact ⟨s, .start, hwire, rfl⟩
  | cons payload wire ih =>
      obtain ⟨s₁, hs, hrest, htabs⟩ :
          ∃ s₁, step s .arrive = some s₁ ∧ s₁.wire = wire ∧ s₁.tabs = s.tabs := by
        rw [step, hwire]
        exact ⟨_, rfl, rfl, rfl⟩
      obtain ⟨s', hreach, hempty, htabs'⟩ := ih s₁ hrest
      have hok : InTurn s .arrive := trivial
      exact ⟨s', (Reach.next .start hok hs).trans hreach, hempty, htabs'.trans htabs⟩

/-- Whatever is under way arrives, without a step of the server. -/
theorem settles (h : Carries s) :
    ∃ s', Reach step InTurn s s' ∧ Settled s' ∧ s'.tabs = s.tabs := by
  obtain ⟨s₁, hreach₁, hwire, htabs⟩ := reach_arrived s
  have hcarries : Carries s₁ :=
    hreach₁.invariant Carries h fun _ a _ hs hok hnext => carries_step a hs hok hnext
  obtain ⟨page, hpage, hreading, hqueue⟩ := Output.settles hcarries.draws
  exact ⟨_, hreach₁.trans (reach_page hpage), ⟨hwire, hreading, hqueue⟩, htabs⟩

/-- The page shows, perhaps after a reset, what the session has printed
without the storage OSCs, at least the last mebibyte of it. What may be the
start of an OSC is held back. -/
def Displays (s : OutputPath) (sessionId : SessionId) : Prop :=
  ∃ before text out tail, Tabs.Covers s.page.given (before ++ text) ∧
    before ∈ [[], Output.sessionReset] ∧ Tabs.Recent text out ∧
    out ++ tail = without storageSetupOsc (s.printed sessionId).flatten ∧
    tail <+: storageSetupOsc ∧ tail ≠ storageSetupOsc

theorem Carries.displays (h : Carries s) (hsettled : Settled s) {sessionId : SessionId}
    (hactive : s.tabs.manager.active = some sessionId) : Displays s sessionId := by
  have hgiven : s.page.given = (s.tabs.log.map Tabs.frame).foldl Output.view [] := by
    have hwire := h.wire
    have hdraws := h.draws.frames
    rw [hsettled.wire, List.append_nil] at hwire
    rw [hsettled.reading, hwire, Output.queued, hsettled.queue] at hdraws
    simpa using hdraws
  have hexact := Tabs.exact_printed (s.printed sessionId)
  obtain ⟨hbegins, hshort⟩ := hexact.tail
  refine ⟨_, _, (emitAll (s.printed sessionId)).emitted, _, hgiven ▸ Tabs.covers_log s.tabs.log,
    ?_, ?_, ?_, hbegins, ?_⟩
  · split_ifs <;> simp
  · rw [h.consistent.shown sessionId hactive]
    exact h.kept.recent sessionId hactive
  · have hout := (hexact.splits []).1
    rw [List.append_nil, List.append_nil, (without_short hshort).1] at hout
    exact hout.symm
  · intro heq
    rw [heq] at hshort
    exact Nat.lt_irrefl _ hshort

/-- **From the shells to the screen.** In every run, what is under way
arrives; and whenever nothing is, the page shows what the shell of the
active tab has printed and nothing else. -/
theorem output_arrives (h : Reach step InTurn start s) :
    (∃ s', Reach step InTurn s s' ∧ Settled s' ∧ s'.tabs = s.tabs) ∧
      (Settled s → ∀ i, s.tabs.manager.active = some i → Displays s i) :=
  have hcarries := carries_of_reach h
  ⟨settles hcarries, fun hsettled _ hactive => hcarries.displays hsettled hactive⟩

/-- The second tab prints `B` while the frames of the first are under way,
and the first is shown again. -/
theorem output_arrives_switched :
    ∃ s : OutputPath, s.tabs.manager.active = some 1 ∧
      s.page.given = Output.sessionReset ++ [0x41, 0x43] ∧ Displays s 1 := by
  obtain ⟨s, hs, hend⟩ := reach_of_replay
    (p := fun s : OutputPath => decide (s.wire = [] ∧ s.page.reading = [] ∧
      s.page.writeQueue = [] ∧ s.tabs.manager.active = some 1 ∧
      s.page.given = Output.sessionReset ++ [0x41, 0x43]))
    (show (replay step InTurn start
      [.server (.create true), .server (.emit 1 [0x41]), .arrive, .server (.create true),
        .server (.emit 2 [0x42]), .fulfilled 0, .server (.switch 1), .arrive, .arrive, .fulfilled 0,
        .animationFrame, .server (.emit 1 [0x43]), .arrive, .arrive, .arrive, .fulfilled 0,
        .fulfilled 0, .fulfilled 0, .fulfilled 0, .animationFrame]).map _ = some true by decide)
  obtain ⟨hwire, hreading, hqueue, hactive, hgiven⟩ := of_decide_eq_true hend
  exact ⟨s, hactive, hgiven, (output_arrives hs).2 ⟨hwire, hreading, hqueue⟩ 1 hactive⟩

end OutputPath

end Zmux
