import Mathlib.Logic.Basic

/-!
# Programs that raise and keep what they have done

`EStateM ε σ` is the monad of a program whose changes to the state stay when
it raises. `Triple pre x post raised` says of `x`, from every state of `pre`:
it ends with a value and a state of `post`, or it raises something in a state
of `raised`. There is one rule for each way programs are put together; a loop
over a list carries an invariant that may speak of what is done
(`Triple.forM`), and `Triple.tryCatch` goes on from where it was raised.
-/

namespace Zmux

universe u

variable {ε σ α β : Type u}

/-- The state when it is over. -/
def finalState : EStateM.Result ε σ α → σ
  | .ok _ s => s
  | .error _ s => s

def Triple (pre : σ → Prop) (x : EStateM ε σ α) (post : α → σ → Prop)
    (raised : ε → σ → Prop) : Prop :=
  ∀ s, pre s → match x s with
    | .ok a s' => post a s'
    | .error e s' => raised e s'

namespace Triple

variable {pre pre' inv : σ → Prop} {post post' : α → σ → Prop} {mid : β → σ → Prop}
variable {raised raised' : ε → σ → Prop} {x : EStateM ε σ α} {s s' : σ} {a : α}

theorem of_ok (h : Triple pre x post raised) (hs : pre s) (hx : x s = .ok a s') : post a s' := by
  have hpost := h s hs
  rwa [hx] at hpost

/-- What holds either way holds in the end. -/
theorem final (h : Triple pre x (fun _ => inv) fun _ => inv) (hs : pre s) :
    inv (finalState (x s)) := by
  have hpost := h s hs
  cases hx : x s <;> rwa [hx] at hpost

theorem conseq (h : Triple pre' x post' raised') (hpre : ∀ s, pre s → pre' s)
    (hpost : ∀ a s, post' a s → post a s) (hraised : ∀ e s, raised' e s → raised e s) :
    Triple pre x post raised := by
  intro s hs
  have hpost' := h s (hpre s hs)
  cases hx : x s with
  | ok a s' =>
      rw [hx] at hpost'
      exact hpost a s' hpost'
  | error e s' =>
      rw [hx] at hpost'
      exact hraised e s' hpost'

theorem pure (h : ∀ s, pre s → post a s) : Triple pre (Pure.pure a : EStateM ε σ α) post raised :=
  h

theorem throw {e : ε} (h : ∀ s, pre s → raised e s) :
    Triple pre (MonadExcept.throw e : EStateM ε σ α) post raised :=
  h

/-- What is read is known from then on. -/
theorem get_bind {f : σ → EStateM ε σ α}
    (h : ∀ s, pre s → Triple (fun s' => s' = s) (f s) post raised) :
    Triple pre (MonadState.get >>= f) post raised :=
  fun s hs => h s hs s rfl

theorem modify {f : σ → σ} {post : PUnit → σ → Prop} (h : ∀ s, pre s → post ⟨⟩ (f s)) :
    Triple pre (modify f : EStateM ε σ PUnit) post raised :=
  h

theorem bind {x : EStateM ε σ β} {f : β → EStateM ε σ α} (hx : Triple pre x mid raised)
    (hf : ∀ b, Triple (mid b) (f b) post raised) : Triple pre (x >>= f) post raised := by
  intro s hs
  have hmid := hx s hs
  change match EStateM.bind x f s with
    | .ok a s' => post a s'
    | .error e s' => raised e s'
  rw [EStateM.bind]
  cases hrun : x s with
  | ok b s' =>
      rw [hrun] at hmid
      exact hf b s' hmid
  | error e s' =>
      rw [hrun] at hmid
      exact hmid

theorem tryCatch {handle : ε → EStateM ε σ α} (hx : Triple pre x post raised')
    (hhandle : ∀ e, Triple (raised' e) (handle e) post raised) :
    Triple pre (MonadExcept.tryCatch x handle) post raised := by
  intro s hs
  have hmid := hx s hs
  change match EStateM.tryCatch x handle s with
    | .ok a s' => post a s'
    | .error e s' => raised e s'
  delta EStateM.tryCatch
  dsimp only
  cases hrun : x s with
  | ok a s' =>
      rw [hrun] at hmid
      exact hmid
  | error e s' =>
      rw [hrun] at hmid
      exact hhandle e s' hmid

theorem ite {p : Prop} [Decidable p] {x y : EStateM ε σ α}
    (hx : p → Triple pre x post raised) (hy : ¬p → Triple pre y post raised) :
    Triple pre (if p then x else y) post raised := by
  by_cases hp : p
  · rw [if_pos hp]
    exact hx hp
  · rw [if_neg hp]
    exact hy hp

/-- The body takes the invariant of what is done to that with one more. -/
theorem forM {f : β → EStateM ε σ PUnit} {inv : List β → σ → Prop} {bs : List β}
    (h : ∀ done b rest, bs = done ++ b :: rest →
      Triple (inv done) (f b) (fun _ => inv (done ++ [b])) raised) :
    Triple (inv []) (bs.forM f) (fun _ => inv bs) raised := by
  suffices hloop : ∀ rest done, bs = done ++ rest →
      Triple (inv done) (rest.forM f) (fun _ => inv bs) raised from hloop bs [] rfl
  intro rest
  induction rest with
  | nil =>
      intro done heq
      rw [List.append_nil] at heq
      rw [heq]
      exact pure fun _ hs => hs
  | cons b rest ih =>
      intro done heq
      refine bind (h done b rest heq) fun _ => ih (done ++ [b]) ?_
      rw [heq, List.append_assoc]
      rfl

end Triple

end Zmux
