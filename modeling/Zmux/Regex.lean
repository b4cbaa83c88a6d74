import Mathlib.Data.List.Basic
import Mathlib.Data.List.Infix

/-!
# Backtracking regular expressions

The order in which a backtracking matcher tries things decides which of
several matches it returns, and with them the groups. `ways r text` lists
all ways in which `r` matches a front of the text, in the order in which
they are tried: an iteration and an optional part are greedy, so the way
with one more turn comes before the ways without it. A match is the first
way. An iteration that matched nothing is not repeated.

What a way is made of is read off the expression by the `mem_` lemmas;
which one comes first follows where a longer way is tried before a shorter
one (`LongestFirst`), as in a sequence whose later part cannot take up
what a shorter first part leaves (`longestFirst_seq`).
-/

namespace Zmux

/-- Over letters `σ`, with groups named by `γ`. -/
inductive Regex (σ γ : Type*) where
  | one (p : σ → Bool)
  | seq (r s : Regex σ γ)
  | optional (r : Regex σ γ)
  | star (r : Regex σ γ)
  | group (name : γ) (r : Regex σ γ)
  /-- Matches nothing, where the rest of the text is as it says. -/
  | before (p : List σ → Bool)

/-- A way to match a front of a text. -/
structure Way (σ γ : Type*) where
  text : List σ
  groups : List (γ × List σ)
  rest : List σ
deriving DecidableEq

variable {σ γ : Type*}

namespace Way

def nothing (rest : List σ) : Way σ γ := ⟨[], [], rest⟩

/-- First the one, then the other on its rest. -/
def append (m m' : Way σ γ) : Way σ γ := ⟨m.text ++ m'.text, m.groups ++ m'.groups, m'.rest⟩

/-- The text of a group: a group that matched again has the last one. -/
def group? [DecidableEq γ] (m : Way σ γ) (name : γ) : Option (List σ) :=
  (m.groups.reverse.find? fun entry => entry.1 = name).map Prod.snd

end Way

/-- The ways of a greedy iteration of at most so many turns. -/
def repeated (ways : List σ → List (Way σ γ)) : ℕ → List σ → List (Way σ γ)
  | 0, text => [.nothing text]
  | turns + 1, text =>
    ((ways text).filter fun m => !m.text.isEmpty).flatMap
        (fun m => (repeated ways turns m.rest).map m.append)
      ++ [.nothing text]

namespace Regex

/-- All ways, the preferred first. A turn takes a letter at least, so the
length of the text bounds the turns. -/
def ways : Regex σ γ → List σ → List (Way σ γ)
  | one _, [] => []
  | one p, c :: cs => if p c then [⟨[c], [], cs⟩] else []
  | seq r s, text => (r.ways text).flatMap fun m => (s.ways m.rest).map m.append
  | optional r, text => r.ways text ++ [.nothing text]
  | star r, text => repeated r.ways text.length text
  | group name r, text =>
    (r.ways text).map fun m => { m with groups := m.groups ++ [(name, m.text)] }
  | before p, text => if p text then [.nothing text] else []

def plus (r : Regex σ γ) : Regex σ γ := seq r (star r)

def letter [DecidableEq σ] (c : σ) : Regex σ γ := one fun d => d == c

/-- Just this word. -/
def literal [DecidableEq σ] : List σ → Regex σ γ
  | [] => before fun _ => true
  | c :: cs => seq (letter c) (literal cs)

/-- The match at the start of the text. -/
def matchStart (r : Regex σ γ) (text : List σ) : Option (Way σ γ) := (r.ways text).head?

/-! ## What a way is made of -/

theorem mem_one {p : σ → Bool} {text : List σ} {m : Way σ γ} :
    m ∈ (one p).ways text ↔ ∃ c, p c = true ∧ text = c :: m.rest ∧ m = ⟨[c], [], m.rest⟩ := by
  cases text with
  | nil => simp [ways]
  | cons c cs =>
      rw [ways]
      split
      · rename_i hp
        rw [List.mem_singleton]
        constructor
        · rintro rfl
          exact ⟨c, hp, rfl, rfl⟩
        · rintro ⟨d, -, htext, hm⟩
          obtain ⟨rfl, hrest⟩ := List.cons.inj htext
          rw [hm, hrest]
      · rename_i hp
        constructor
        · exact fun h => absurd h List.not_mem_nil
        · rintro ⟨d, hd, htext, -⟩
          exact absurd ((List.cons.inj htext).1 ▸ hd) hp

theorem mem_letter [DecidableEq σ] {c : σ} {text : List σ} {m : Way σ γ} :
    m ∈ (letter c).ways text ↔ text = c :: m.rest ∧ m = ⟨[c], [], m.rest⟩ := by
  rw [letter, mem_one]
  constructor
  · rintro ⟨d, hd, h⟩
    rwa [beq_iff_eq.mp hd] at h
  · exact fun h => ⟨c, beq_self_eq_true c, h⟩

theorem mem_seq {r s : Regex σ γ} {text : List σ} {m : Way σ γ} :
    m ∈ (seq r s).ways text ↔ ∃ a ∈ r.ways text, ∃ b ∈ s.ways a.rest, m = a.append b := by
  simp only [ways, List.mem_flatMap, List.mem_map, eq_comm]

theorem mem_optional_seq {r s : Regex σ γ} {text : List σ} {m : Way σ γ} :
    m ∈ (seq r.optional s).ways text ↔ m ∈ (seq r s).ways text ∨ m ∈ s.ways text := by
  have hnothing : ((s.ways text).map (Way.nothing text).append) = s.ways text :=
    List.map_id (s.ways text)
  show m ∈ (r.ways text ++ [Way.nothing text]).flatMap
    (fun a : Way σ γ => (s.ways a.rest).map a.append) ↔ _
  rw [List.flatMap_append, List.mem_append, List.flatMap_singleton]
  exact or_congr_right (iff_of_eq (congrArg (m ∈ ·) hnothing))

theorem mem_group {name : γ} {r : Regex σ γ} {text : List σ} {m : Way σ γ} :
    m ∈ (r.group name).ways text
      ↔ ∃ a ∈ r.ways text, m = { a with groups := a.groups ++ [(name, a.text)] } := by
  simp only [ways, List.mem_map, eq_comm]

theorem mem_before {p : List σ → Bool} {text : List σ} {m : Way σ γ} :
    m ∈ (before p : Regex σ γ).ways text ↔ p text = true ∧ m = .nothing text := by
  rw [ways]
  split
  · rename_i hp
    simp [hp]
  · rename_i hp
    simp [hp]

theorem mem_literal [DecidableEq σ] : ∀ {word text : List σ} {m : Way σ γ},
    m ∈ (literal word).ways text ↔ text = word ++ m.rest ∧ m = ⟨word, [], m.rest⟩
  | [], text, m => by
      rw [literal, mem_before]
      constructor
      · rintro ⟨-, rfl⟩
        exact ⟨rfl, rfl⟩
      · rintro ⟨rfl, hm⟩
        exact ⟨rfl, hm⟩
  | c :: word, text, ⟨w, groups, rest⟩ => by
      rw [literal, mem_seq]
      constructor
      · rintro ⟨a, ha, b, hb, hm⟩
        obtain ⟨htext, ha⟩ := mem_letter.mp ha
        obtain ⟨hrest, hb⟩ := mem_literal.mp hb
        rw [ha, hb] at hm
        obtain ⟨rfl, rfl, rfl⟩ := Way.mk.inj hm
        exact ⟨htext.trans (congrArg (c :: ·) hrest), rfl⟩
      · rintro ⟨rfl, hm⟩
        obtain ⟨rfl, rfl, -⟩ := Way.mk.inj hm
        exact ⟨⟨[c], [], word ++ rest⟩, mem_letter.mpr ⟨rfl, rfl⟩,
          ⟨word, [], rest⟩, mem_literal.mpr ⟨rfl, rfl⟩, rfl⟩

end Regex

/-! ## The language of an expression without groups -/

/-- The words that are words of `L` one after another. -/
inductive Iterated (L : List σ → Prop) : List σ → Prop
  | nil : Iterated L []
  | cons {u v : List σ} : u ≠ [] → L u → Iterated L v → Iterated L (u ++ v)

/-- The ways of `r` are the fronts that are words of `L`. -/
def Reads (r : Regex σ γ) (L : List σ → Prop) : Prop :=
  ∀ text m, m ∈ r.ways text ↔ text = m.text ++ m.rest ∧ L m.text ∧ m.groups = []

namespace Reads

variable {r s : Regex σ γ} {L K : List σ → Prop}

theorem congr (h : Reads r L) (hiff : ∀ u, L u ↔ K u) : Reads r K := by
  intro text m
  rw [h text m, hiff]

theorem one (p : σ → Bool) : Reads (.one p : Regex σ γ) fun u => ∃ c, p c = true ∧ u = [c] := by
  rintro text ⟨u, groups, rest⟩
  rw [Regex.mem_one]
  constructor
  · rintro ⟨c, hp, rfl, hm⟩
    obtain ⟨rfl, rfl, -⟩ := Way.mk.inj hm
    exact ⟨rfl, ⟨c, hp, rfl⟩, rfl⟩
  · rintro ⟨rfl, ⟨c, hp, hu⟩, hgroups⟩
    dsimp only at hu hgroups
    subst hu hgroups
    exact ⟨c, hp, rfl, rfl⟩

theorem seq (hr : Reads r L) (hs : Reads s K) :
    Reads (.seq r s) fun w => ∃ u v, L u ∧ K v ∧ w = u ++ v := by
  rintro text ⟨w, groups, rest⟩
  rw [Regex.mem_seq]
  constructor
  · rintro ⟨a, ha, b, hb, hm⟩
    obtain ⟨htext, hL, hgroups⟩ := (hr _ _).mp ha
    obtain ⟨hrest, hK, hgroups'⟩ := (hs _ _).mp hb
    obtain ⟨rfl, rfl, rfl⟩ := Way.mk.inj hm
    refine ⟨?_, ⟨_, _, hL, hK, rfl⟩, ?_⟩
    · rw [htext, hrest, List.append_assoc]
    · exact List.append_eq_nil_iff.mpr ⟨hgroups, hgroups'⟩
  · rintro ⟨rfl, ⟨u, v, hL, hK, hw⟩, hgroups⟩
    dsimp only at hw hgroups
    subst hw hgroups
    exact ⟨⟨u, [], v ++ rest⟩, (hr _ _).mpr ⟨List.append_assoc .., hL, rfl⟩,
      ⟨v, [], rest⟩, (hs _ _).mpr ⟨rfl, hK, rfl⟩, rfl⟩

/-- Enough turns for the length of the text read every word. -/
theorem mem_repeated (h : Reads r L) : ∀ {turns : ℕ} {text : List σ} {m : Way σ γ},
    text.length ≤ turns → (m ∈ repeated r.ways turns text
      ↔ text = m.text ++ m.rest ∧ Iterated L m.text ∧ m.groups = [])
  | turns, text, ⟨w, groups, rest⟩, hlength => by
      have hnothing : (⟨w, groups, rest⟩ : Way σ γ) = .nothing text →
          text = w ++ rest ∧ Iterated L w ∧ groups = [] := by
        intro hm
        obtain ⟨rfl, rfl, rfl⟩ := Way.mk.inj hm
        exact ⟨rfl, .nil, rfl⟩
      cases turns with
      | zero =>
          obtain rfl := List.length_eq_zero_iff.mp (Nat.le_zero.mp hlength)
          rw [repeated, List.mem_singleton]
          refine ⟨hnothing, fun ⟨htext, _, hgroups⟩ => ?_⟩
          obtain ⟨hw, hrest⟩ := List.append_eq_nil_iff.mp htext.symm
          dsimp only at hw hrest hgroups
          rw [hw, hrest, hgroups]
          rfl
      | succ turns =>
          rw [repeated, List.mem_append, List.mem_singleton, List.mem_flatMap]
          constructor
          · rintro (⟨a, ha, hm⟩ | hm)
            · obtain ⟨ha, hne⟩ := List.mem_filter.mp ha
              obtain ⟨htext, hL, hgroups⟩ := (h _ _).mp ha
              obtain ⟨b, hb, hm⟩ := List.mem_map.mp hm
              have hshorter : a.rest.length ≤ turns := by
                have hpos : a.text.length ≠ 0 := fun hzero => by
                  rw [List.length_eq_zero_iff.mp hzero] at hne
                  cases hne
                rw [htext, List.length_append] at hlength
                omega
              obtain ⟨hrest, hK, hgroups'⟩ := (mem_repeated h hshorter).mp hb
              obtain ⟨rfl, rfl, rfl⟩ := Way.mk.inj hm
              refine ⟨?_, .cons (fun hnil => ?_) hL hK, ?_⟩
              · rw [htext, hrest, List.append_assoc]
              · rw [hnil] at hne
                cases hne
              · exact List.append_eq_nil_iff.mpr ⟨hgroups, hgroups'⟩
            · exact hnothing hm
          · rintro ⟨rfl, hw, hgroups⟩
            dsimp only at hw hgroups
            subst hgroups
            cases hw with
            | nil => exact .inr rfl
            | @cons u v hne hL hK =>
                have hfirst : (⟨u, [], v ++ rest⟩ : Way σ γ) ∈ r.ways (u ++ v ++ rest) :=
                  (h _ _).mpr ⟨(List.append_assoc u v rest), hL, rfl⟩
                have hturn : (!u.isEmpty) = true := by
                  cases u with
                  | nil => exact absurd rfl hne
                  | cons => rfl
                have hshorter : (v ++ rest).length ≤ turns := by
                  have hpos := List.length_pos_of_ne_nil hne
                  simp only [List.length_append] at hlength ⊢
                  omega
                have hlater : (⟨v, [], rest⟩ : Way σ γ) ∈ repeated r.ways turns (v ++ rest) :=
                  (mem_repeated h hshorter).mpr ⟨rfl, hK, rfl⟩
                exact .inl ⟨_, List.mem_filter.mpr ⟨hfirst, hturn⟩,
                  List.mem_map.mpr ⟨_, hlater, rfl⟩⟩

theorem star (h : Reads r L) : Reads r.star (Iterated L) :=
  fun _ _ => h.mem_repeated (Nat.le_refl _)

theorem letters_iff {p : σ → Bool} {u : List σ} :
    Iterated (fun u => ∃ c, p c = true ∧ u = [c]) u ↔ ∀ c ∈ u, p c = true := by
  constructor
  · intro h
    induction h with
    | nil => exact fun c hc => absurd hc List.not_mem_nil
    | cons _ hL _ ih =>
        obtain ⟨c, hp, rfl⟩ := hL
        exact List.forall_mem_cons.mpr ⟨hp, ih⟩
  · intro h
    induction u with
    | nil => exact .nil
    | cons c u ih =>
        obtain ⟨hp, hu⟩ := List.forall_mem_cons.mp h
        exact .cons (List.cons_ne_nil c []) ⟨c, hp, rfl⟩ (ih hu)

/-- A non-empty run of letters. -/
theorem plus_one (p : σ → Bool) :
    Reads (Regex.plus (.one p) : Regex σ γ) fun u => u ≠ [] ∧ ∀ c ∈ u, p c = true := by
  refine ((one p).seq ((one p).star.congr fun _ => letters_iff)).congr fun w => ?_
  constructor
  · rintro ⟨_, v, ⟨c, hp, rfl⟩, hv, rfl⟩
    exact ⟨List.cons_ne_nil _ _, List.forall_mem_cons.mpr ⟨hp, hv⟩⟩
  · rintro ⟨hne, hw⟩
    cases w with
    | nil => exact absurd rfl hne
    | cons c w =>
        obtain ⟨hp, hw⟩ := List.forall_mem_cons.mp hw
        exact ⟨[c], w, ⟨c, hp, rfl⟩, hw, rfl⟩

end Reads

/-! ## The longest way first -/

/-- A longer way comes before a shorter one. -/
def LongestFirst (ms : List (Way σ γ)) : Prop :=
  ms.Pairwise fun m m' => m'.text.length < m.text.length

/-- The first success is that of the longest way that has any. -/
theorem LongestFirst.head?_flatMap {β : Type*} {ms : List (Way σ γ)} {f : Way σ γ → List β} {x : β}
    (h : LongestFirst ms) (hx : (ms.flatMap f).head? = some x) :
    ∃ m ∈ ms, x ∈ f m ∧ ∀ m' ∈ ms, f m' ≠ [] → m'.text.length ≤ m.text.length := by
  induction ms with
  | nil => cases hx
  | cons m ms ih =>
      obtain ⟨hm, hms⟩ := List.pairwise_cons.mp h
      rw [List.flatMap_cons] at hx
      by_cases hnil : f m = []
      · rw [hnil, List.nil_append] at hx
        obtain ⟨m₁, hm₁, hmem, hlongest⟩ := ih hms hx
        refine ⟨m₁, List.mem_cons_of_mem _ hm₁, hmem, fun m' hm' hne => ?_⟩
        rcases List.mem_cons.mp hm' with rfl | hm'
        · exact absurd hnil hne
        · exact hlongest m' hm' hne
      · refine ⟨m, List.mem_cons_self, ?_, fun m' hm' _ => ?_⟩
        · rw [List.head?_append_of_ne_nil _ hnil] at hx
          exact List.mem_of_mem_head? hx
        · rcases List.mem_cons.mp hm' with rfl | hm'
          · exact Nat.le_refl _
          · exact Nat.le_of_lt (hm m' hm')

theorem LongestFirst.map_append {ms : List (Way σ γ)} (h : LongestFirst ms) (a : Way σ γ) :
    LongestFirst (ms.map a.append) := by
  refine List.pairwise_map.mpr (List.Pairwise.imp (fun hlt => ?_) h)
  simp only [Way.append, List.length_append]
  exact Nat.add_lt_add_left hlt _

/-- A sequence tries the longest way first when what follows a first part
that is not the longest takes nothing. -/
theorem longestFirst_flatMap {ms : List (Way σ γ)} {f : Way σ γ → List (Way σ γ)}
    (hms : LongestFirst ms) (hf : ∀ a ∈ ms, LongestFirst (f a))
    (hstop : ∀ a ∈ ms, ∀ b ∈ ms, b.text.length < a.text.length → ∀ m ∈ f b, m.text = []) :
    LongestFirst (ms.flatMap fun a => (f a).map a.append) := by
  refine List.pairwise_flatMap.mpr ⟨fun a ha => (hf a ha).map_append a, ?_⟩
  refine List.Pairwise.imp_of_mem (fun {a b} ha hb hlt => ?_) hms
  rintro _ hx _ hy
  obtain ⟨x, -, rfl⟩ := List.mem_map.mp hx
  obtain ⟨z, hz, rfl⟩ := List.mem_map.mp hy
  simp only [Way.append, List.length_append, hstop a ha b hb hlt z hz, List.length_nil]
  omega

theorem repeated_of_nil {ways : List σ → List (Way σ γ)} {text : List σ} (h : ways text = []) :
    ∀ turns, repeated ways turns text = [.nothing text]
  | 0 => rfl
  | turns + 1 => by rw [repeated, h]; rfl

theorem longestFirst_repeated {ways : List σ → List (Way σ γ)}
    (hways : ∀ text, LongestFirst (ways text))
    (hstop : ∀ text, ∀ a ∈ ways text, ∀ b ∈ ways text,
      b.text.length < a.text.length → ways b.rest = []) :
    ∀ turns text, LongestFirst (repeated ways turns text)
  | 0, _ => List.pairwise_singleton _ _
  | turns + 1, text => by
      rw [repeated]
      refine List.pairwise_append.mpr ⟨longestFirst_flatMap ((hways text).filter _)
        (fun a _ => longestFirst_repeated hways hstop turns a.rest) ?_,
        List.pairwise_singleton _ _, ?_⟩
      · intro a ha b hb hlt m hm
        have hnil := hstop text a (List.mem_filter.mp ha).1 b (List.mem_filter.mp hb).1 hlt
        rw [repeated_of_nil hnil, List.mem_singleton] at hm
        rw [hm]
        rfl
      · intro m hm m' hm'
        obtain ⟨a, ha, hm⟩ := List.mem_flatMap.mp hm
        obtain ⟨b, -, rfl⟩ := List.mem_map.mp hm
        rw [List.mem_singleton.mp hm']
        have hne := (List.mem_filter.mp ha).2
        cases htext : a.text with
        | nil =>
            rw [htext] at hne
            cases hne
        | cons c cs => simp [Way.append, Way.nothing, htext]

namespace Regex

theorem longestFirst_one (p : σ → Bool) (text : List σ) :
    LongestFirst ((one p : Regex σ γ).ways text) := by
  cases text with
  | nil => exact List.Pairwise.nil
  | cons c cs =>
      rw [ways]
      split
      · exact List.pairwise_singleton _ _
      · exact List.Pairwise.nil

theorem longestFirst_seq {r s : Regex σ γ} {text : List σ} (hr : LongestFirst (r.ways text))
    (hs : ∀ text, LongestFirst (s.ways text))
    (hstop : ∀ a ∈ r.ways text, ∀ b ∈ r.ways text, b.text.length < a.text.length →
      ∀ m ∈ s.ways b.rest, m.text = []) : LongestFirst ((seq r s).ways text) :=
  longestFirst_flatMap hr (fun a _ => hs a.rest) hstop

theorem longestFirst_star {r : Regex σ γ} (hr : ∀ text, LongestFirst (r.ways text))
    (hstop : ∀ text, ∀ a ∈ r.ways text, ∀ b ∈ r.ways text,
      b.text.length < a.text.length → r.ways b.rest = []) (text : List σ) :
    LongestFirst (r.star.ways text) :=
  longestFirst_repeated hr hstop _ text

theorem length_of_mem_one {p : σ → Bool} {text : List σ} {m : Way σ γ}
    (hm : m ∈ (one p).ways text) : m.text.length = 1 := by
  obtain ⟨c, -, -, hm⟩ := mem_one.mp hm
  rw [hm]
  rfl

theorem longestFirst_one_seq {p : σ → Bool} {s : Regex σ γ}
    (hs : ∀ text, LongestFirst (s.ways text)) (text : List σ) :
    LongestFirst ((seq (one p) s).ways text) := by
  refine longestFirst_seq (longestFirst_one p text) hs fun a ha b hb hlt => ?_
  rw [length_of_mem_one ha, length_of_mem_one hb] at hlt
  exact absurd hlt (Nat.lt_irrefl 1)

theorem longestFirst_plus_one (p : σ → Bool) (text : List σ) :
    LongestFirst ((plus (one p) : Regex σ γ).ways text) := by
  refine longestFirst_one_seq
    (longestFirst_star (longestFirst_one p) fun _ a ha b hb hlt => ?_) text
  rw [length_of_mem_one ha, length_of_mem_one hb] at hlt
  exact absurd hlt (Nat.lt_irrefl 1)

theorem longestFirst_group {r : Regex σ γ} {text : List σ} (h : LongestFirst (r.ways text))
    (name : γ) : LongestFirst ((r.group name).ways text) :=
  List.pairwise_map.mpr h

/-- A match of a sequence has the longest first part that goes on to a match. -/
theorem matchStart_seq {r s : Regex σ γ} {text : List σ} {m : Way σ γ}
    (hr : LongestFirst (r.ways text)) (hm : (seq r s).matchStart text = some m) :
    ∃ a ∈ r.ways text, (∃ b ∈ s.ways a.rest, m = a.append b)
      ∧ ∀ a' ∈ r.ways text, s.ways a'.rest ≠ [] → a'.text.length ≤ a.text.length := by
  obtain ⟨a, ha, hmem, hlongest⟩ := hr.head?_flatMap hm
  obtain ⟨b, hb, rfl⟩ := List.mem_map.mp hmem
  refine ⟨a, ha, ⟨b, hb, rfl⟩, fun a' ha' hne => hlongest a' ha' fun hnil => hne ?_⟩
  exact List.map_eq_nil_iff.mp hnil

end Regex

/-- After a way that is not the longest comes a letter of the longest. -/
theorem Reads.letter_of_shorter {r : Regex σ γ} {L : List σ → Prop} (h : Reads r L)
    {text : List σ} {a b : Way σ γ} (ha : a ∈ r.ways text) (hb : b ∈ r.ways text)
    (hlt : b.text.length < a.text.length) :
    ∃ c cs, b.rest = c :: cs ∧ c ∈ a.text ∧ b.text ++ [c] <+: a.text := by
  have htext := ((h _ _).mp ha).1
  have htext' := ((h _ _).mp hb).1
  have hprefix : b.text <+: a.text :=
    List.prefix_of_prefix_length_le (htext' ▸ List.prefix_append ..)
      (htext ▸ List.prefix_append ..) (Nat.le_of_lt hlt)
  obtain ⟨back, hback⟩ := hprefix
  cases back with
  | nil =>
      rw [List.append_nil] at hback
      rw [hback] at hlt
      exact absurd hlt (Nat.lt_irrefl _)
  | cons c back =>
      refine ⟨c, back ++ a.rest, ?_, ?_, back, ?_⟩
      · rw [htext, ← hback, List.append_assoc] at htext'
        exact (List.append_cancel_left htext').symm
      · rw [← hback]
        exact List.mem_append_right _ List.mem_cons_self
      · rw [List.append_assoc]
        exact hback

end Zmux
