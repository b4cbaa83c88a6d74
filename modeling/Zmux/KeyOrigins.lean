import Mathlib.Data.List.Induction
import Mathlib.Data.Char
import Zmux.Keyboard

/-!
# Where the characters of the pending line come from

A key sends one character or an escape sequence, and the parser of
`_handle_char` has to tell the keys apart again. Whether it does is a
question about origins: every character of the pending line was typed, was
recalled from the history, or belongs to a key that should have typed
nothing (`Origin.sequence`).

`Traced` carries the origins beside the session. They move as the
characters do (`aligned_handleChar`): a typed character is appended with
the origin of its key, a recalled line has origins of its own, and the
stash keeps those of the line it was made from. No character of a sequence
gets into the line as long as every sequence starts outside of another
one, and the first that does not leaves its final character there
(`no_leak_iff`).
-/

namespace Zmux

namespace Keyboard

/-! ## Keys -/

/-- A key that types its character. -/
def isPrintable (c : Char) : Bool := ' ' ≤ c && c ≠ '\x7f'

theorem ne_of_isPrintable {c d : Char} (hc : isPrintable c = true) (hd : isPrintable d = false) :
    c ≠ d := by
  rintro rfl
  rw [hc] at hd
  cases hd

theorem space_le_of_isPrintable {c : Char} (hc : isPrintable c = true) : ' ' ≤ c := by
  simp only [isPrintable, Bool.and_eq_true, decide_eq_true_eq] at hc
  exact hc.1

/-- The parameter and intermediate bytes of a CSI sequence. -/
def isParam (c : Char) : Bool := ' ' ≤ c && c ≤ '?'

/-- What can be pressed: the arrows are `csi [] 'A'` or `ss3 'A'` and so
on. -/
inductive Key where
  | printable (char : Char) (h : isPrintable char = true)
  | esc
  | csi (params : List Char) (final : Char) (hparams : ∀ p ∈ params, isParam p = true)
      (hfinal : isFinal final = true)
  | ss3 (final : Char) (hfinal : isFinal final = true)

inductive Origin where
  | typed
  | recalled
  | sequence
deriving DecidableEq

namespace Key

def isSequence : Key → Bool
  | .printable .. => false
  | .esc => false
  | .csi .. => true
  | .ss3 .. => true

/-- What the key sends. -/
def chars : Key → List Char
  | .printable char _ => [char]
  | .esc => [escape]
  | .csi params final _ _ => escape :: '[' :: (params ++ [final])
  | .ss3 final _ => [escape, 'O', final]

def origin : Key → Origin
  | .printable .. => .typed
  | _ => .sequence

def encode (k : Key) : List (Char × Origin) := k.chars.map fun c => (c, k.origin)

theorem encode_fst (k : Key) : k.encode.map Prod.fst = k.chars := by
  simp [encode, Function.comp_def]

end Key

/-! ## Origins -/

/-- The session, with the origin of every character of the pending line
and of the stash. -/
structure Traced where
  keyboard : Keyboard
  line : List Origin
  stash : List Origin

namespace Traced

/-- The origins after `_history_step`. -/
def historyStep (t : Traced) (direction : Int) : List Origin × List Origin :=
  let s := t.keyboard
  let history := s.console.history
  if s.console.busy = true ∨ history = [] then (t.line, t.stash)
  else if s.historyIndex = none ∧ 0 < direction then (t.line, t.stash)
  else
    let stash := if s.historyIndex = none then t.line else t.stash
    let newIndex := (s.historyIndex.getD history.length : Int) + direction
    if (history.length : Int) ≤ newIndex then (stash, stash)
    else ((history.getD (max 0 newIndex).toNat []).map fun _ => .recalled, stash)

/-- The origins after `_handle_escape_char`. -/
def handleEscapeChar (t : Traced) (char : Char) : List Origin × List Origin :=
  match t.keyboard.escState with
  | .ground | .esc => (t.line, t.stash)
  | .ss3 | .csi =>
    if char = 'A' then t.historyStep (-1)
    else if char = 'B' then t.historyStep 1
    else (t.line, t.stash)

/-- The origins after `_handle_char`. -/
def origins (t : Traced) (char : Char) (origin : Origin) : List Origin × List Origin :=
  if t.keyboard.escState ≠ .ground ∨ char = escape then t.handleEscapeChar char
  else if char = ctrlC then ([], t.stash)
  else if char = '\x04' then (t.line, t.stash)
  else if char = '\x7f' ∨ char = '\x08' then (t.line.dropLast, t.stash)
  else if char = '\r' ∨ char = '\n' then ([], t.stash)
  else if ' ' ≤ char then (t.line ++ [origin], t.stash)
  else (t.line, t.stash)

def handleChar (host : Host) (t : Traced) (c : Char × Origin) : Traced where
  keyboard := t.keyboard.handleChar host c.1
  line := (t.origins c.1 c.2).1
  stash := (t.origins c.1 c.2).2

def press (host : Host) (t : Traced) (k : Key) : Traced := k.encode.foldl (handleChar host) t

def run (host : Host) (t : Traced) (keys : List Key) : Traced := keys.foldl (press host) t

/-- What is in the line now counts as typed. -/
def start (s : Keyboard) : Traced where
  keyboard := s
  line := s.lineBuffer.map fun _ => .typed
  stash := s.historyStash.map fun _ => .typed

/-- There is an origin for every character. -/
structure Aligned (t : Traced) : Prop where
  line : t.line.length = t.keyboard.lineBuffer.length
  stash : t.stash.length = t.keyboard.historyStash.length

theorem aligned_start (s : Keyboard) : (start s).Aligned := ⟨by simp [start], by simp [start]⟩

variable {t : Traced} {host : Host}

theorem aligned_historyStep (h : t.Aligned) (direction : Int) :
    (t.historyStep direction).1.length = (t.keyboard.historyStep direction).lineBuffer.length
    ∧ (t.historyStep direction).2.length
      = (t.keyboard.historyStep direction).historyStash.length := by
  unfold historyStep Keyboard.historyStep
  dsimp only
  split
  · exact ⟨h.line, h.stash⟩
  split
  · exact ⟨h.line, h.stash⟩
  have hstash : (if t.keyboard.historyIndex = none then t.line else t.stash).length
      = (if t.keyboard.historyIndex = none then t.keyboard.lineBuffer
          else t.keyboard.historyStash).length := by
    split
    · exact h.line
    · exact h.stash
  split
  · exact ⟨hstash, hstash⟩
  · exact ⟨List.length_map .., hstash⟩

theorem aligned_handleEscapeChar (h : t.Aligned) {char : Char}
    (hsequence : t.keyboard.escState ≠ .ground ∨ char = escape) :
    (t.handleEscapeChar char).1.length = (t.keyboard.handleEscapeChar char).lineBuffer.length
    ∧ (t.handleEscapeChar char).2.length
      = (t.keyboard.handleEscapeChar char).historyStash.length := by
  have harrow : (if char = 'A' then t.historyStep (-1) else if char = 'B' then t.historyStep 1
        else (t.line, t.stash)).1.length = (t.keyboard.arrow char).lineBuffer.length
      ∧ (if char = 'A' then t.historyStep (-1) else if char = 'B' then t.historyStep 1
        else (t.line, t.stash)).2.length = (t.keyboard.arrow char).historyStash.length := by
    unfold arrow
    split
    · exact aligned_historyStep h (-1)
    split
    · exact aligned_historyStep h 1
    · exact ⟨h.line, h.stash⟩
  rw [handleEscapeChar_eq hsequence, handleEscapeChar]
  cases t.keyboard.escState with
  | ground => exact ⟨h.line, h.stash⟩
  | esc => exact ⟨h.line, h.stash⟩
  | ss3 => exact harrow
  | csi => exact harrow

/-- The origins move as the characters do. -/
theorem aligned_handleChar (h : t.Aligned) (c : Char × Origin) :
    (t.handleChar host c).Aligned := by
  obtain ⟨char, origin⟩ := c
  have hcases : (t.origins char origin).1.length
        = (t.keyboard.handleChar host char).lineBuffer.length
      ∧ (t.origins char origin).2.length
        = (t.keyboard.handleChar host char).historyStash.length := by
    unfold origins Keyboard.handleChar
    split
    · rename_i hsequence
      exact aligned_handleEscapeChar h hsequence
    split
    · unfold interruptRunning
      dsimp only
      split <;> exact ⟨rfl, h.stash⟩
    split
    · split <;> exact ⟨h.line, h.stash⟩
    split
    · split
      · exact ⟨by simp [emit, h.line], h.stash⟩
      · rename_i hempty
        refine ⟨?_, h.stash⟩
        rw [List.length_dropLast, h.line, not_not.mp hempty]
        rfl
    split
    · exact ⟨rfl, h.stash⟩
    split
    · exact ⟨by simp [emit, h.line], h.stash⟩
    · exact ⟨h.line, h.stash⟩
  exact ⟨hcases.1, hcases.2⟩

theorem aligned_press (h : t.Aligned) (k : Key) : (press host t k).Aligned := by
  unfold press
  induction k.encode generalizing t with
  | nil => exact h
  | cons c cs ih => exact ih (aligned_handleChar h c)

theorem aligned_run (host : Host) (s : Keyboard) (keys : List Key) :
    (run host (start s) keys).Aligned := by
  have hkeys : ∀ t : Traced, t.Aligned → (keys.foldl (press host) t).Aligned := by
    induction keys with
    | nil => exact fun _ h => h
    | cons k keys ih => exact fun _ h => ih _ (aligned_press h k)
  exact hkeys _ (aligned_start s)

/-! ## Lines without a trace of a sequence -/

/-- No character of a sequence is in the pending line. -/
def Clean (t : Traced) : Prop := .sequence ∉ t.line

instance (t : Traced) : Decidable t.Clean := inferInstanceAs (Decidable (_ ∉ _))

/-- Nor in the stash, which `Down` puts back. -/
structure Spotless (t : Traced) : Prop where
  line : t.Clean
  stash : .sequence ∉ t.stash

theorem spotless_start (s : Keyboard) : (start s).Spotless :=
  ⟨by simp [Clean, start], by simp [start]⟩

theorem spotless_historyStep (h : t.Spotless) (direction : Int) :
    .sequence ∉ (t.historyStep direction).1 ∧ .sequence ∉ (t.historyStep direction).2 := by
  unfold historyStep
  dsimp only
  split
  · exact ⟨h.line, h.stash⟩
  split
  · exact ⟨h.line, h.stash⟩
  have hstash : .sequence ∉ (if t.keyboard.historyIndex = none then t.line else t.stash) := by
    split
    · exact h.line
    · exact h.stash
  split
  · exact ⟨hstash, hstash⟩
  · exact ⟨by simp, hstash⟩

/-- A character of a sequence does not get into the line while the parser
is inside of one. -/
theorem spotless_handleChar (h : t.Spotless) {c : Char × Origin}
    (hinside : c.2 = .sequence → t.keyboard.escState ≠ .ground ∨ c.1 = escape) :
    (t.handleChar host c).Spotless := by
  obtain ⟨char, origin⟩ := c
  have hcases : .sequence ∉ (t.origins char origin).1
      ∧ .sequence ∉ (t.origins char origin).2 := by
    unfold origins
    split
    · unfold handleEscapeChar
      split
      · exact ⟨h.line, h.stash⟩
      · exact ⟨h.line, h.stash⟩
      all_goals
        split
        · exact spotless_historyStep h (-1)
        split
        · exact spotless_historyStep h 1
        · exact ⟨h.line, h.stash⟩
    · rename_i hplain
      have horigin : origin ≠ .sequence := fun heq => hplain (hinside heq)
      split
      · exact ⟨List.not_mem_nil, h.stash⟩
      split
      · exact ⟨h.line, h.stash⟩
      split
      · exact ⟨fun hmem => h.line (List.dropLast_subset _ hmem), h.stash⟩
      split
      · exact ⟨List.not_mem_nil, h.stash⟩
      split
      · refine ⟨fun hmem => ?_, h.stash⟩
        rcases List.mem_append.mp hmem with hmem | hmem
        · exact h.line hmem
        · exact horigin (List.mem_singleton.mp hmem).symm
      · exact ⟨h.line, h.stash⟩
  exact ⟨hcases.1, hcases.2⟩

/-! ## Keys, one by one -/

theorem escState_chars (cs : List (Char × Origin)) (t : Traced) :
    (cs.foldl (handleChar host) t).keyboard.escState
      = (cs.map Prod.fst).foldl EscState.next t.keyboard.escState := by
  induction cs generalizing t with
  | nil => rfl
  | cons c cs ih =>
      rw [List.foldl_cons, ih, List.map_cons, List.foldl_cons, handleChar,
        handleChar_escState]

theorem escState_press (host : Host) (t : Traced) (k : Key) :
    (press host t k).keyboard.escState = k.chars.foldl EscState.next t.keyboard.escState := by
  rw [press, escState_chars, k.encode_fst]

theorem escState_keys (keys : List Key) (t : Traced) :
    (run host t keys).keyboard.escState
      = (keys.flatMap Key.chars).foldl EscState.next t.keyboard.escState := by
  induction keys generalizing t with
  | nil => rfl
  | cons k keys ih =>
      rw [List.flatMap_cons, List.foldl_append, ← escState_press host]
      exact ih (press host t k)

/-- Characters that all meet the parser inside of a sequence. -/
theorem spotless_inside (cs : List Char) {t : Traced} (h : t.Spotless)
    (hinside : ∀ pre c post, cs = pre ++ c :: post →
      pre.foldl EscState.next t.keyboard.escState ≠ .ground ∨ c = escape) :
    ((cs.map fun c => (c, Origin.sequence)).foldl (handleChar host) t).Spotless := by
  induction cs generalizing t with
  | nil => exact h
  | cons c cs ih =>
      rw [List.map_cons, List.foldl_cons]
      refine ih (spotless_handleChar h fun _ => hinside [] c cs rfl) fun pre d post heq => ?_
      have hnext := hinside (c :: pre) d post (by rw [heq, List.cons_append])
      rwa [List.foldl_cons, ← handleChar_escState host] at hnext

theorem isFinal_isParam {c : Char} (h : isParam c = true) : isFinal c = false := by
  simp only [isParam, Bool.and_eq_true, decide_eq_true_eq] at h
  have hlow : c < '@' := lt_of_le_of_lt h.2 (by decide)
  simp [isFinal, not_le.mpr hlow]

theorem isPrintable_isParam {c : Char} (h : isParam c = true) : isPrintable c = true := by
  simp only [isParam, Bool.and_eq_true, decide_eq_true_eq] at h
  have hlow : c < '\x7f' := lt_of_le_of_lt h.2 (by decide)
  simp [isPrintable, h.1, ne_of_lt hlow]

theorem isPrintable_isFinal {c : Char} (h : isFinal c = true) : isPrintable c = true := by
  simp only [isFinal, Bool.and_eq_true, decide_eq_true_eq] at h
  have hlow : c < '\x7f' := lt_of_le_of_lt h.2 (by decide)
  have hhigh : ' ' ≤ c := le_trans (by decide) h.1
  simp [isPrintable, hhigh, ne_of_lt hlow]

/-- A key leaves no trace if the parser is outside of every sequence, or
if it starts none. -/
theorem spotless_press (h : t.Spotless) {k : Key}
    (hground : k.isSequence = true → t.keyboard.escState = .ground) :
    (press host t k).Spotless := by
  cases k with
  | printable char hchar => exact spotless_handleChar h nofun
  | esc => exact spotless_handleChar h fun _ => Or.inr rfl
  | csi params final hparams hfinal =>
      refine spotless_inside (escape :: '[' :: (params ++ [final])) h fun pre c post heq => ?_
      rw [hground rfl]
      rcases pre with _ | ⟨first, _ | ⟨second, pre⟩⟩
      · exact Or.inr (List.cons.inj heq).1.symm
      · obtain ⟨rfl, -⟩ := List.cons.inj heq
        exact Or.inl (by decide)
      · simp only [List.cons_append, List.cons.injEq] at heq
        obtain ⟨rfl, rfl, heq⟩ := heq
        -- what precedes `c` are parameters
        have hpre : pre <+: params := by
          refine (List.prefix_concat_iff.mp ⟨c :: post, heq.symm⟩).resolve_left fun hall => ?_
          rw [hall, List.append_assoc] at heq
          simp at heq
        have hinside : pre.foldl EscState.next .csi = .csi :=
          next_params fun p hp => isFinal_isParam (hparams p (hpre.subset hp))
        refine Or.inl fun hend => ?_
        cases hinside.symm.trans hend
  | ss3 final hfinal =>
      refine spotless_inside [escape, 'O', final] h fun pre c post heq => ?_
      rw [hground rfl]
      rcases pre with _ | ⟨first, _ | ⟨second, _ | ⟨third, pre⟩⟩⟩
      · exact Or.inr (List.cons.inj heq).1.symm
      · obtain ⟨rfl, -⟩ := List.cons.inj heq
        exact Or.inl (by decide)
      · simp only [List.cons_append, List.cons.injEq] at heq
        obtain ⟨rfl, rfl, -⟩ := heq
        exact Or.inl (by decide)
      · simp at heq

/-- Outside of every sequence a printable character goes into the line. -/
theorem typed_ground (host : Host) (hground : t.keyboard.escState = .ground) {c : Char}
    (hc : isPrintable c = true) (origin : Origin) :
    (t.handleChar host (c, origin)).line = t.line ++ [origin]
    ∧ (t.handleChar host (c, origin)).keyboard.escState = .ground := by
  have hne : ∀ d : Char, isPrintable d = false → c ≠ d := fun d => ne_of_isPrintable hc
  have hspace : ' ' ≤ c := space_le_of_isPrintable hc
  have hescape : c ≠ escape := hne _ (by decide)
  constructor
  · simp [handleChar, origins, hground, hescape, hne ctrlC (by decide), hne '\x04' (by decide),
      hne '\x7f' (by decide), hne '\x08' (by decide), hne '\r' (by decide),
      hne '\n' (by decide), hspace]
  · rw [handleChar, handleChar_escState, hground]
    simp [EscState.next, hescape]

theorem typed_chars {cs : List Char} (hcs : ∀ c ∈ cs, isPrintable c = true) {t : Traced}
    (hground : t.keyboard.escState = .ground) (origin : Origin) :
    ((cs.map fun c => (c, origin)).foldl (handleChar host) t).line
      = t.line ++ cs.map fun _ => origin := by
  induction cs generalizing t with
  | nil => simp
  | cons c cs ih =>
      obtain ⟨hline, hstate⟩ := typed_ground host hground
        (hcs c (List.mem_cons_self ..)) origin
      rw [List.map_cons, List.foldl_cons, ih (fun d hd => hcs d (List.mem_cons_of_mem _ hd)) hstate,
        hline, List.append_assoc]
      rfl

/-- Inside of a sequence the first two characters of another one end it. -/
theorem next_twice {state : EscState} (h : state ≠ .ground) {c : Char} (hc : c = '[' ∨ c = 'O') :
    (state.next escape).next c = .ground := by
  rcases hc with rfl | rfl <;>
    · cases state with
      | ground => exact (h rfl).elim
      | esc => rfl
      | csi => rfl
      | ss3 => rfl

/-- A sequence that starts inside of another one is typed into the line. -/
theorem leak_press (host : Host) {k : Key} (hk : k.isSequence = true)
    (hstate : t.keyboard.escState ≠ .ground) :
    ¬(press host t k).Clean := by
  have hleak : ∀ (c : Char) (cs : List Char), c = '[' ∨ c = 'O' → cs ≠ [] →
      (∀ d ∈ cs, isPrintable d = true) → k.encode
        = (escape, .sequence) :: (c, .sequence) :: cs.map (fun d => (d, .sequence)) →
      ¬(press host t k).Clean := by
    intro c cs hc hcs hprintable hencode hclean
    rw [press, hencode, List.foldl_cons, List.foldl_cons] at hclean
    have hground : ((t.handleChar host (escape, .sequence)).handleChar host
        (c, .sequence)).keyboard.escState = .ground := by
      rw [handleChar, handleChar_escState, handleChar, handleChar_escState]
      exact next_twice hstate hc
    refine hclean ?_
    rw [typed_chars hprintable hground]
    obtain ⟨d, hd⟩ := List.exists_mem_of_ne_nil cs hcs
    exact List.mem_append_right _ (List.mem_map.mpr ⟨d, hd, rfl⟩)
  cases k with
  | printable => cases hk
  | esc => cases hk
  | csi params final hparams hfinal =>
      refine hleak '[' (params ++ [final]) (Or.inl rfl) (by simp) (fun d hd => ?_) rfl
      rcases List.mem_append.mp hd with hd | hd
      · exact isPrintable_isParam (hparams d hd)
      · rw [List.mem_singleton.mp hd]
        exact isPrintable_isFinal hfinal
  | ss3 final hfinal =>
      refine hleak 'O' [final] (Or.inr rfl) (by simp) (fun d hd => ?_) rfl
      rw [List.mem_singleton.mp hd]
      exact isPrintable_isFinal hfinal

theorem run_concat (t : Traced) (keys : List Key) (k : Key) :
    run host t (keys ++ [k]) = press host (run host t keys) k := by
  rw [run, List.foldl_append]
  rfl

/-- The keys that start a sequence do it after whole keys. -/
def Apart (keys : List Key) : Prop :=
  ∀ pre k post, keys = pre ++ k :: post → k.isSequence = true → Settled (pre.flatMap Key.chars)

/-- **Escape sequences do not leak** into the line, at any point of a run
of keys, if and only if every sequence starts outside of another one. -/
theorem no_leak_iff (host : Host) {s : Keyboard} (hground : s.escState = .ground)
    (keys : List Key) :
    (∀ pre, pre <+: keys → (run host (start s) pre).Clean) ↔ Apart keys := by
  have hstate : ∀ pre : List Key, (run host (start s) pre).keyboard.escState = .ground
      ↔ Settled (pre.flatMap Key.chars) := by
    intro pre
    rw [escState_keys, start, hground]
    exact ground_iff _
  constructor
  · intro hclean pre k post heq hk
    by_contra hinside
    refine leak_press host hk (fun hground => hinside ((hstate pre).mp hground)) ?_
    rw [← run_concat]
    exact hclean _ ⟨post, by rw [heq, List.append_assoc]; rfl⟩
  · intro hapart pre hpre
    suffices hspotless : (run host (start s) pre).Spotless from hspotless.line
    induction pre using List.reverseRecOn with
    | nil => exact spotless_start s
    | append_singleton pre k ih =>
        rw [run_concat]
        obtain ⟨post, hpost⟩ := hpre
        refine spotless_press (ih ⟨k :: post, by rw [← hpost, List.append_assoc]; rfl⟩) fun hk => ?_
        refine (hstate pre).mpr (hapart pre k post ?_ hk)
        rw [← hpost, List.append_assoc]
        rfl

/-! ## The Escape key before an arrow -/

def up : Key := .csi [] 'A' nofun rfl

def plainHost : Host :=
  ⟨fun _ _ => false, fun _ => false, fun _ => false, fun _ => true, fun _ => false⟩

/-- Escape, then Up: the second half of the arrow is in the line. -/
theorem escape_then_up_leaks :
    (run plainHost (start (Keyboard.start false)) [.esc, up]).keyboard.lineBuffer = ['[', 'A']
      ∧ ¬(run plainHost (start (Keyboard.start false)) [.esc, up]).Clean := by
  exact ⟨by decide, by decide⟩

/-- Up after a typed character. -/
theorem up_after_text :
    (run plainHost (start (Keyboard.start false)) [.printable 'x' rfl, up]).Clean := by
  have hapart : Apart [.printable 'x' rfl, up] := by
    intro pre k post heq hk
    rcases pre with _ | ⟨first, _ | ⟨second, pre⟩⟩
    · exact .nil
    · obtain ⟨rfl, -⟩ := List.cons.inj heq
      exact .plain (by decide) .nil
    · simp at heq
  exact (no_leak_iff plainHost rfl _).mpr hapart _ (List.prefix_refl _)

end Traced

end Keyboard

end Zmux
