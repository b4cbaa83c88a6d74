import Mathlib.Data.List.Pairwise
import Mathlib.Logic.Function.Basic
import Zmux.Runs

/-!
# Instances and their ports

Several instances of ZMUX may start and stop on one machine, next to other
programs. Each binds its listeners (`_bind_http_socket`, `_bind_ws_socket`
and `_bind_ipv6_loopback` of `server.py`), publishes the WebSocket port,
and serves a page that carries this port and the token. On Android the
listener for HTTP is bound with `SO_REUSEPORT`, so that instances may share
it, and the system picks one of them for a request.

Whatever instances come and go, a page speaks to the instance that served
it as long as that one runs (`page_reaches_server`): the port of the page
is bound on 127.0.0.1 by this instance alone.

`launch` stands for the import of the module and the start of `run_server`;
which token it loads is arbitrary, and Android has `SO_REUSEPORT`. A
listener of an instance that exits may outlive the others for a while.
Addresses other than loopback are never bound and left out.
-/

namespace Zmux

namespace ServerPorts

inductive Family where
  | inet
  | inet6
deriving DecidableEq

/-- A listening socket on loopback; `owner` is `none` for one of another
program. -/
structure Listener where
  family : Family
  port : ℕ
  /-- `SO_REUSEPORT`. -/
  reuse : Bool
  owner : Option ℕ
deriving DecidableEq

/-- `P4A_HTTP_PORT`. -/
def p4aHttpPort : ℕ := 8000

/-- `CHROMIUM_RESTRICTED_PORTS`. -/
def restrictedPorts : List ℕ :=
  [0, 1, 7, 9, 11, 13, 15, 17, 19, 20, 21, 22, 23, 25, 37, 42, 43, 53, 69,
    77, 79, 87, 95, 101, 102, 103, 104, 109, 110, 111, 113, 115, 117, 119,
    123, 135, 137, 139, 143, 161, 179, 389, 427, 465, 512, 513, 514, 515,
    526, 530, 531, 532, 540, 548, 554, 556, 563, 587, 601, 636, 989, 990,
    993, 995, 1719, 1720, 1723, 2049, 3659, 4045, 5060, 5061, 6000, 6566,
    6665, 6666, 6667, 6668, 6669, 6697, 10080]

/-- Where an instance is in `run_server`. -/
inductive Boot where
  | off
  /-- In `_bind_http_socket`, at this candidate. -/
  | bindHttp (port : ℕ)
  /-- About to bind `::1` for HTTP. -/
  | bindHttp6 (http : ℕ)
  /-- In `_bind_ws_socket`, at this candidate. -/
  | bindWs (http port : ℕ)
  /-- The port is published, about to bind `::1`. -/
  | bindWs6 (http ws : ℕ)
  | serving (http ws : ℕ)
  | exiting
deriving DecidableEq

structure Instance where
  android : Bool
  /-- `AUTH_TOKEN`. -/
  token : ℕ
  /-- `app.config["WS_PORT"]`. -/
  wsPort : ℕ
  boot : Boot

/-- `terminal.html` as it was rendered; `server` is a ghost. -/
structure Page where
  server : ℕ
  token : ℕ
  wsPort : ℕ

structure Machine where
  listeners : List Listener
  instances : ℕ → Instance
  pages : List Page

inductive Step where
  | launch (i : ℕ) (android : Bool) (token : ℕ)
  /-- The next attempt to bind on 127.0.0.1. -/
  | bind (i : ℕ)
  /-- `_bind_ipv6_loopback`; `available` is whether the system has `::1`. -/
  | bind6 (i : ℕ) (available : Bool)
  /-- The deadline of `P4A_BIND_TIMEOUT_SECONDS`. -/
  | giveUp (i : ℕ)
  /-- A request for the page that the system hands to this instance. -/
  | request (i : ℕ) (family : Family)
  | exit (i : ℕ)
  /-- A socket of an instance that exits is closed. -/
  | close (listener : Listener)
  /-- Another program takes a port. -/
  | occupy (family : Family) (port : ℕ) (reuse : Bool)
  | release (listener : Listener)

/-- `bind` and `listen` do not raise. -/
def free (listeners : List Listener) (family : Family) (port : ℕ) (reuse : Bool) : Bool :=
  listeners.all fun l => l.family ≠ family || l.port ≠ port || (l.reuse && reuse)

namespace Machine

def start : Machine where
  listeners := []
  instances _ := ⟨false, 0, p4aHttpPort + 1, .off⟩
  pages := []

def update (s : Machine) (i : ℕ) (boot : Boot) : Machine :=
  { s with instances := Function.update s.instances i { s.instances i with boot := boot } }

def listen (s : Machine) (listener : Listener) : Machine :=
  { s with listeners := listener :: s.listeners }

/-- `app.config["WS_PORT"] = ws_port`. -/
def publish (s : Machine) (i : ℕ) (wsPort : ℕ) (boot : Boot) : Machine :=
  { s with
    instances := Function.update s.instances i
      { s.instances i with wsPort := wsPort, boot := boot } }

/-- An attempt of `_bind_http_socket`. -/
def bindHttp (s : Machine) (i port : ℕ) : Machine :=
  let android := (s.instances i).android
  if free s.listeners .inet port android then
    (s.listen ⟨.inet, port, android, some i⟩).update i (.bindHttp6 port)
  else if android then s
  else if port < p4aHttpPort + 10 then s.update i (.bindHttp (port + 1))
  else s.update i .exiting

/-- An attempt of `_bind_ws_socket`. -/
def bindWs (s : Machine) (i http port : ℕ) : Machine :=
  if port ∉ restrictedPorts ∧ free s.listeners .inet port false = true then
    (s.listen ⟨.inet, port, false, some i⟩).publish i port (.bindWs6 http port)
  else if port < http + 100 then s.update i (.bindWs http (port + 1))
  else s.update i .exiting

def bindLoopback6 (s : Machine) (i port : ℕ) (available : Bool) : Machine :=
  if available = true ∧ free s.listeners .inet6 port false = true then
    s.listen ⟨.inet6, port, false, some i⟩
  else s

def step (s : Machine) : Step → Option Machine
  | .launch i android token =>
    if (s.instances i).boot = .off then
      some { s with
        instances := Function.update s.instances i
          ⟨android, token, p4aHttpPort + 1,
            if p4aHttpPort ∈ restrictedPorts then .exiting else .bindHttp p4aHttpPort⟩ }
    else none
  | .bind i =>
    match (s.instances i).boot with
    | .bindHttp port => some (s.bindHttp i port)
    | .bindWs http port => some (s.bindWs i http port)
    | _ => none
  | .bind6 i available =>
    match (s.instances i).boot with
    | .bindHttp6 http =>
      some ((s.bindLoopback6 i http available).update i (.bindWs http (http + 1)))
    | .bindWs6 http ws => some ((s.bindLoopback6 i ws available).update i (.serving http ws))
    | _ => none
  | .giveUp i =>
    match (s.instances i).boot with
    | .bindHttp _ => if (s.instances i).android then some (s.update i .exiting) else none
    | _ => none
  | .request i family =>
    match (s.instances i).boot with
    | .serving http _ =>
      if ∃ l ∈ s.listeners, l.family = family ∧ l.port = http ∧ l.owner = some i then
        some { s with pages := ⟨i, (s.instances i).token, (s.instances i).wsPort⟩ :: s.pages }
      else none
    | _ => none
  | .exit i => if (s.instances i).boot = .off then none else some (s.update i .exiting)
  | .close listener =>
    match listener.owner with
    | some i =>
      if (s.instances i).boot = .exiting then
        some { s with listeners := s.listeners.erase listener }
      else none
    | none => none
  | .occupy family port reuse =>
    if free s.listeners family port reuse then some (s.listen ⟨family, port, reuse, none⟩)
    else none
  | .release listener =>
    if listener.owner = none then some { s with listeners := s.listeners.erase listener } else none

end Machine

/-! ## What an instance owns -/

namespace Boot

/-- The port of HTTP is bound. -/
def http? : Boot → Option ℕ
  | .bindHttp6 http | .bindWs http _ | .bindWs6 http _ | .serving http _ => some http
  | _ => none

/-- The WebSocket port is bound. -/
def ws? : Boot → Option ℕ
  | .bindWs6 _ ws | .serving _ ws => some ws
  | _ => none

/-- It may have served a page. -/
def up : Boot → Bool
  | .serving _ _ | .exiting => true
  | _ => false

def httpInRange (http : ℕ) : Prop := p4aHttpPort ≤ http ∧ http ≤ p4aHttpPort + 10

def InRange : Boot → Prop
  | .off | .exiting => True
  | .bindHttp port => httpInRange port
  | .bindHttp6 http => httpInRange http
  | .bindWs http port => httpInRange http ∧ http < port ∧ port ≤ http + 100
  | .bindWs6 http ws | .serving http ws =>
    httpInRange http ∧ http < ws ∧ ws ≤ http + 100 ∧ ws ∉ restrictedPorts

end Boot

/-- The listeners of an instance are those that it has come to bind; those
of one that exits are being closed. -/
structure Owns (listeners : List Listener) (i : ℕ) (x : Instance) : Prop where
  http : ∀ http, x.boot.http? = some http → ⟨.inet, http, x.android, some i⟩ ∈ listeners
  ws : ∀ ws, x.boot.ws? = some ws → ⟨.inet, ws, false, some i⟩ ∈ listeners ∧ x.wsPort = ws
  range : x.boot.InRange
  launched : ∀ l ∈ listeners, l.owner = some i → x.boot ≠ .off
  loopback6 : ∀ l ∈ listeners, l.owner = some i → l.family = .inet6 →
    x.boot = .exiting ∨ x.boot.http? = some l.port ∨ x.boot.ws? = some l.port

/-- Two listeners on one port share it with `SO_REUSEPORT`. -/
def Shared (l l' : Listener) : Prop :=
  l.family = l'.family → l.port = l'.port → l.reuse = true ∧ l'.reuse = true

instance : Std.Symm Shared where
  symm _ _ hshared hfamily hport := (hshared hfamily.symm hport.symm).symm

structure Sound (s : Machine) : Prop where
  exclusive : s.listeners.Pairwise Shared
  owns : ∀ i, Owns s.listeners i (s.instances i)
  pages : ∀ page ∈ s.pages, page.token = (s.instances page.server).token ∧
    page.wsPort = (s.instances page.server).wsPort ∧ (s.instances page.server).boot.up = true

variable {s s' : Machine} {i : ℕ} {x : Instance} {listeners : List Listener}

theorem sound_start : Sound .start where
  exclusive := .nil
  owns _ :=
    { http := fun _ h => by cases h
      ws := fun _ h => by cases h
      range := trivial
      launched := fun _ h => by cases h
      loopback6 := fun _ h => by cases h }
  pages _ h := by cases h

/-- Only the listeners of the instance itself matter. -/
theorem Owns.congr {listeners' : List Listener} (h : Owns listeners i x)
    (hsame : ∀ l : Listener, l.owner = some i → (l ∈ listeners' ↔ l ∈ listeners)) :
    Owns listeners' i x where
  http http hhttp := (hsame _ rfl).mpr (h.http http hhttp)
  ws ws hws := ⟨(hsame _ rfl).mpr (h.ws ws hws).1, (h.ws ws hws).2⟩
  range := h.range
  launched l hl howner := h.launched l ((hsame l howner).mp hl) howner
  loopback6 l hl howner := h.loopback6 l ((hsame l howner).mp hl) howner

theorem exclusive_cons {l : Listener} (h : listeners.Pairwise Shared)
    (hfree : free listeners l.family l.port l.reuse = true) :
    (l :: listeners).Pairwise Shared := by
  refine List.pairwise_cons.mpr ⟨fun l' hl' hfamily hport => ?_, h⟩
  have hbind := List.all_eq_true.mp hfree l' hl'
  simp only [hfamily, hport, ne_eq, not_true_eq_false, decide_false, Bool.false_or,
    Bool.and_eq_true] at hbind
  exact ⟨hbind.2, hbind.1⟩

/-- One instance moves, and may bind a listener. -/
theorem Sound.move (h : Sound s) (hexclusive : listeners.Pairwise Shared)
    (hothers : ∀ j ≠ i, ∀ l : Listener, l.owner = some j → (l ∈ listeners ↔ l ∈ s.listeners))
    (howns : Owns listeners i x)
    (hup : (s.instances i).boot.up = true → x.token = (s.instances i).token ∧
      x.wsPort = (s.instances i).wsPort ∧ x.boot.up = true) :
    Sound { s with listeners := listeners, instances := Function.update s.instances i x } where
  exclusive := hexclusive
  owns j := by
    by_cases hj : j = i
    · subst hj
      simpa only [Function.update_self] using howns
    · simpa only [Function.update_of_ne hj] using (h.owns j).congr (hothers j hj)
  pages page hpage := by
    obtain ⟨htoken, hport, hserved⟩ := h.pages page hpage
    by_cases hserver : page.server = i
    · rw [hserver] at htoken hport hserved
      obtain ⟨htoken', hport', hup'⟩ := hup hserved
      simp only [hserver, Function.update_self]
      exact ⟨htoken.trans htoken'.symm, hport.trans hport'.symm, hup'⟩
    · simp only [Function.update_of_ne hserver]
      exact ⟨htoken, hport, hserved⟩

/-- It moves and binds nothing. -/
theorem Sound.update (h : Sound s) {boot : Boot}
    (howns : Owns s.listeners i { s.instances i with boot := boot })
    (hup : (s.instances i).boot.up = true → boot.up = true) : Sound (s.update i boot) :=
  h.move h.exclusive (fun _ _ _ _ => Iff.rfl) howns fun hserved => ⟨rfl, rfl, hup hserved⟩

theorem mem_listen_other {l l' : Listener} (hother : l.owner ≠ l'.owner) :
    l' ∈ l :: listeners ↔ l' ∈ listeners := by
  rw [List.mem_cons]
  exact or_iff_right fun heq => hother (congrArg Listener.owner heq).symm

/-- It moves and binds a listener. -/
theorem Sound.listen (h : Sound s) {l : Listener} (howner : l.owner = some i)
    (hfree : free s.listeners l.family l.port l.reuse = true)
    (howns : Owns (l :: s.listeners) i x) (hdown : (s.instances i).boot.up = false) :
    Sound { s with
      listeners := l :: s.listeners, instances := Function.update s.instances i x } := by
  refine h.move (exclusive_cons h.exclusive hfree) (fun j hj l' howner' => mem_listen_other ?_)
    howns fun hup => ?_
  · rw [howner, howner']
    exact fun heq => hj (Option.some.inj heq).symm
  · cases hdown.symm.trans hup

theorem sound_launch (h : Sound s) {android : Bool} {token : ℕ}
    (hstep : s.step (.launch i android token) = some s') : Sound s' := by
  rw [Machine.step] at hstep
  split at hstep
  · rename_i hoff
    obtain rfl := Option.some.inj hstep
    have howns := h.owns i
    have hnone (l : Listener) (hl : l ∈ s.listeners) (howner : l.owner = some i) : False :=
      howns.launched l hl howner hoff
    refine h.move h.exclusive (fun _ _ _ _ => Iff.rfl) ?_ fun hup => ?_
    · rw [if_neg (by decide)]
      exact
        { http := fun _ hhttp => by cases hhttp
          ws := fun _ hws => by cases hws
          range := ⟨Nat.le_refl _, Nat.le_add_right _ _⟩
          launched := fun l hl howner => (hnone l hl howner).elim
          loopback6 := fun l hl howner => (hnone l hl howner).elim }
    · rw [hoff] at hup
      cases hup
  · cases hstep

/-- An instance may give up wherever it is. -/
theorem sound_exiting (h : Sound s) (i : ℕ) : Sound (s.update i .exiting) := by
  refine h.update ?_ fun _ => rfl
  exact
    { http := fun _ hhttp => by cases hhttp
      ws := fun _ hws => by cases hws
      range := trivial
      launched := fun _ _ _ hoff => by cases hoff
      loopback6 := fun _ _ _ _ => .inl rfl }

theorem sound_bindHttp (h : Sound s) {port : ℕ} (hboot : (s.instances i).boot = .bindHttp port) :
    Sound (s.bindHttp i port) := by
  have howns := h.owns i
  have hrange := howns.range
  have hnone6 (l : Listener) (hl : l ∈ s.listeners) (howner : l.owner = some i)
      (hfamily : l.family = .inet6) : False := by
    have hbound := howns.loopback6 l hl howner hfamily
    rw [hboot] at hbound
    rcases hbound with hbound | hbound | hbound <;> cases hbound
  have hdown : (s.instances i).boot.up = false := by rw [hboot]; rfl
  rw [hboot] at hrange
  unfold Machine.bindHttp
  dsimp only
  split
  · rename_i hfree
    refine h.listen rfl hfree ?_ hdown
    refine ⟨fun http hhttp => ?_, fun ws hws => (by cases hws), hrange,
      fun _ _ _ hoff => (by cases hoff), fun l hl howner hfamily => ?_⟩
    · obtain rfl := Option.some.inj hhttp
      exact List.mem_cons_self ..
    · rcases List.mem_cons.mp hl with rfl | hl
      · cases hfamily
      · exact (hnone6 l hl howner hfamily).elim
  · split
    · exact h
    · split
      · rename_i hlt
        refine h.update ?_ fun hup => by cases hdown.symm.trans hup
        exact ⟨fun http hhttp => (by cases hhttp), fun ws hws => (by cases hws),
          ⟨Nat.le_succ_of_le hrange.1, hlt⟩, fun _ _ _ hoff => (by cases hoff),
          fun l hl howner hfamily => (hnone6 l hl howner hfamily).elim⟩
      · exact sound_exiting h i

theorem sound_bindWs (h : Sound s) {http port : ℕ}
    (hboot : (s.instances i).boot = .bindWs http port) : Sound (s.bindWs i http port) := by
  have howns := h.owns i
  have hrange := howns.range
  have hhttp := howns.http http (by rw [hboot]; rfl)
  have honly6 (l : Listener) (hl : l ∈ s.listeners) (howner : l.owner = some i)
      (hfamily : l.family = .inet6) : some http = some l.port := by
    have hbound := howns.loopback6 l hl howner hfamily
    rw [hboot] at hbound
    rcases hbound with hbound | hbound | hbound
    · cases hbound
    · exact hbound
    · cases hbound
  have hdown : (s.instances i).boot.up = false := by rw [hboot]; rfl
  rw [hboot] at hrange
  obtain ⟨hin, hlt, hle⟩ := hrange
  unfold Machine.bindWs
  split
  · rename_i hfree
    refine h.listen rfl hfree.2 ?_ hdown
    refine ⟨fun http' hhttp' => ?_, fun ws hws => ?_, ⟨hin, hlt, hle, hfree.1⟩,
      fun _ _ _ hoff => (by cases hoff), fun l hl howner hfamily => ?_⟩
    · obtain rfl := Option.some.inj hhttp'
      exact List.mem_cons_of_mem _ hhttp
    · obtain rfl := Option.some.inj hws
      exact ⟨List.mem_cons_self .., rfl⟩
    · rcases List.mem_cons.mp hl with rfl | hl
      · cases hfamily
      · exact .inr (.inl (honly6 l hl howner hfamily))
  · split
    · rename_i hnext
      refine h.update ?_ fun hup => by cases hdown.symm.trans hup
      refine ⟨fun http' hhttp' => ?_, fun ws hws => (by cases hws),
        ⟨hin, Nat.lt_succ_of_lt hlt, hnext⟩, fun _ _ _ hoff => (by cases hoff),
        fun l hl howner hfamily => .inr (.inl (honly6 l hl howner hfamily))⟩
      obtain rfl := Option.some.inj hhttp'
      exact hhttp
    · exact sound_exiting h i

/-- The listener on `::1` is for a port that the instance has on 127.0.0.1,
if it is bound at all. -/
theorem sound_bind6 (h : Sound s) {port : ℕ} {boot : Boot} (available : Bool)
    (hdown : (s.instances i).boot.up = false)
    (hport : boot.http? = some port ∨ boot.ws? = some port)
    (hhttp : boot.http? = (s.instances i).boot.http?) (hws : boot.ws? = (s.instances i).boot.ws?)
    (hoff : boot ≠ .off) (hrange : boot.InRange) :
    Sound ((s.bindLoopback6 i port available).update i boot) := by
  have howns := h.owns i
  have hexiting : (s.instances i).boot ≠ .exiting := by
    intro hexiting
    rw [hexiting] at hdown
    cases hdown
  have hold (l : Listener) (hl : l ∈ s.listeners) (howner : l.owner = some i)
      (hfamily : l.family = .inet6) :
      boot = .exiting ∨ boot.http? = some l.port ∨ boot.ws? = some l.port := by
    rw [hhttp, hws]
    exact .inr ((howns.loopback6 l hl howner hfamily).resolve_left hexiting)
  unfold Machine.bindLoopback6
  split
  · rename_i hfree
    refine h.listen rfl hfree.2 ?_ hdown
    refine ⟨fun http hbound => ?_, fun ws hbound => ?_, hrange, fun _ _ _ => hoff,
      fun l hl howner hfamily => ?_⟩
    · exact List.mem_cons_of_mem _ (howns.http http (hhttp ▸ hbound))
    · obtain ⟨hmem, hpublished⟩ := howns.ws ws (hws ▸ hbound)
      exact ⟨List.mem_cons_of_mem _ hmem, hpublished⟩
    · rcases List.mem_cons.mp hl with rfl | hl
      · exact .inr hport
      · exact hold l hl howner hfamily
  · refine h.update ?_ fun hup => by cases hdown.symm.trans hup
    exact ⟨fun http hbound => howns.http http (hhttp ▸ hbound),
      fun ws hbound => howns.ws ws (hws ▸ hbound), hrange, fun _ _ _ => hoff, hold⟩

/-- Listeners of others come, and listeners that nobody relies on go. -/
theorem Sound.others (h : Sound s) (hexclusive : listeners.Pairwise Shared)
    (hsame : ∀ i, (s.instances i).boot ≠ .exiting →
      ∀ l : Listener, l.owner = some i → (l ∈ listeners ↔ l ∈ s.listeners))
    (hfewer : ∀ l ∈ listeners, l.owner ≠ none → l ∈ s.listeners) :
    Sound { s with listeners := listeners } where
  exclusive := hexclusive
  owns i := by
    by_cases hexiting : (s.instances i).boot = .exiting
    · have howns := h.owns i
      refine ⟨fun http hhttp => ?_, fun ws hws => ?_, howns.range, fun l hl howner => ?_,
        fun l hl howner hfamily => .inl hexiting⟩
      · rw [hexiting] at hhttp
        cases hhttp
      · rw [hexiting] at hws
        cases hws
      · exact howns.launched l (hfewer l hl (by rw [howner]; exact Option.some_ne_none i)) howner
    · exact (h.owns i).congr (hsame i hexiting)
  pages := h.pages

theorem sound_step (h : Sound s) {a : Step} (hstep : s.step a = some s') : Sound s' := by
  cases a with
  | launch i android token => exact sound_launch h hstep
  | bind i =>
      rw [Machine.step] at hstep
      split at hstep
      · rename_i port hboot
        obtain rfl := Option.some.inj hstep
        exact sound_bindHttp h hboot
      · rename_i http port hboot
        obtain rfl := Option.some.inj hstep
        exact sound_bindWs h hboot
      · cases hstep
  | bind6 i available =>
      have hrange := (h.owns i).range
      rw [Machine.step] at hstep
      split at hstep
      · rename_i http hboot
        obtain rfl := Option.some.inj hstep
        rw [hboot] at hrange
        refine sound_bind6 h available (by rw [hboot]; rfl) (.inl rfl) (by rw [hboot]; rfl)
          (by rw [hboot]; rfl) (fun hoff => by cases hoff) ⟨hrange, Nat.lt_succ_self _, ?_⟩
        exact Nat.add_le_add_left (by decide) http
      · rename_i http ws hboot
        obtain rfl := Option.some.inj hstep
        rw [hboot] at hrange
        exact sound_bind6 h available (by rw [hboot]; rfl) (.inr rfl) (by rw [hboot]; rfl)
          (by rw [hboot]; rfl) (fun hoff => by cases hoff) hrange
      · cases hstep
  | giveUp i =>
      rw [Machine.step] at hstep
      split at hstep
      · split at hstep
        · obtain rfl := Option.some.inj hstep
          exact sound_exiting h i
        · cases hstep
      · cases hstep
  | request i family =>
      rw [Machine.step] at hstep
      split at hstep
      · rename_i http ws hboot
        split at hstep
        · obtain rfl := Option.some.inj hstep
          refine ⟨h.exclusive, h.owns, fun page hpage => ?_⟩
          rcases List.mem_cons.mp hpage with rfl | hpage
          · exact ⟨rfl, rfl, by rw [hboot]; rfl⟩
          · exact h.pages page hpage
        · cases hstep
      · cases hstep
  | exit i =>
      rw [Machine.step] at hstep
      split at hstep
      · cases hstep
      · obtain rfl := Option.some.inj hstep
        exact sound_exiting h i
  | close l =>
      rw [Machine.step] at hstep
      split at hstep
      · rename_i i howner
        split at hstep
        · rename_i hexiting
          obtain rfl := Option.some.inj hstep
          refine h.others (h.exclusive.sublist List.erase_sublist) (fun j hj l' howner' => ?_)
            fun l' hl' _ => List.mem_of_mem_erase hl'
          refine List.mem_erase_of_ne ?_
          rintro rfl
          obtain rfl := Option.some.inj (howner'.symm.trans howner)
          exact hj hexiting
        · cases hstep
      · cases hstep
  | occupy family port reuse =>
      rw [Machine.step] at hstep
      split at hstep
      · rename_i hfree
        obtain rfl := Option.some.inj hstep
        refine h.others (exclusive_cons h.exclusive hfree) (fun j _ l howner => ?_)
          fun l hl howner => ?_
        · exact mem_listen_other (by rw [howner]; exact fun heq => by cases heq)
        · rcases List.mem_cons.mp hl with rfl | hl
          · exact absurd rfl howner
          · exact hl
      · cases hstep
  | release l =>
      rw [Machine.step] at hstep
      split at hstep
      · rename_i howner
        obtain rfl := Option.some.inj hstep
        refine h.others (h.exclusive.sublist List.erase_sublist) (fun j _ l' howner' => ?_)
          fun l' hl' _ => List.mem_of_mem_erase hl'
        refine List.mem_erase_of_ne ?_
        rintro rfl
        cases howner'.symm.trans howner
      · cases hstep

theorem sound_of_reach (h : Reach Machine.step Free .start s) : Sound s :=
  h.invariant Sound sound_start fun _ _ _ hs _ hstep => sound_step hs hstep

/-- Next to a listener without `SO_REUSEPORT` there is no other one. -/
theorem Sound.eq_of_port (h : Sound s) {l l' : Listener} (hl : l ∈ s.listeners)
    (hl' : l' ∈ s.listeners) (halone : l.reuse = false) (hfamily : l'.family = l.family)
    (hport : l'.port = l.port) : l' = l := by
  by_contra hne
  have hshared := h.exclusive.forall hl hl' fun heq => hne heq.symm
  cases halone.symm.trans (hshared hfamily.symm hport.symm).1

/-- **A page speaks to the instance that served it**, as long as that one
runs, whatever other instances and programs do: it has the token and the
port of the instance, which alone listens on this port of 127.0.0.1; on
`::1` no other instance does but one that is about to go. -/
theorem page_reaches_server (h : Reach Machine.step Free .start s) {page : Page}
    (hpage : page ∈ s.pages) {http ws : ℕ}
    (hserving : (s.instances page.server).boot = .serving http ws) :
    page.token = (s.instances page.server).token ∧ page.wsPort = ws ∧
      (∃ l ∈ s.listeners, l.family = .inet ∧ l.port = page.wsPort) ∧
      (∀ l ∈ s.listeners, l.family = .inet → l.port = page.wsPort →
        l.owner = some page.server) ∧
      (∀ l ∈ s.listeners, l.family = .inet6 → l.port = page.wsPort →
        ∀ i, l.owner = some i → i = page.server ∨ (s.instances i).boot = .exiting) ∧
      8000 ≤ http ∧ http ≤ 8010 ∧ http < ws ∧ ws ≤ http + 100 ∧ ws ∉ restrictedPorts := by
  have hsound := sound_of_reach h
  have howns := hsound.owns page.server
  obtain ⟨htoken, hport, -⟩ := hsound.pages page hpage
  obtain ⟨hbound, hpublished⟩ := howns.ws ws (by rw [hserving]; rfl)
  have hrange := howns.range
  rw [hserving] at hrange
  obtain ⟨⟨hmin, hmax⟩, hlt, hle, hallowed⟩ := hrange
  have hws : page.wsPort = ws := hport.trans hpublished
  have halone (l : Listener) (hl : l ∈ s.listeners) (hfamily : l.family = .inet)
      (hlport : l.port = ws) : l.owner = some page.server := by
    rw [hsound.eq_of_port hbound hl rfl hfamily hlport]
  refine ⟨htoken, hws, ⟨_, hbound, rfl, hws.symm⟩, fun l hl hfamily hlport =>
    halone l hl hfamily (hlport.trans hws), fun l hl hfamily hlport i howner => ?_,
    hmin, hmax, hlt, hle, hallowed⟩
  -- an instance that runs has on 127.0.0.1 what it has on ::1
  have hloopback := (hsound.owns i).loopback6 l hl howner hfamily
  rw [hlport, hws] at hloopback
  rcases hloopback with hexiting | hhttp | hother
  · exact .inr hexiting
  · exact .inl (Option.some.inj (halone _ ((hsound.owns i).http ws hhttp) rfl rfl))
  · exact .inl (Option.some.inj (halone _ ((hsound.owns i).ws ws hother).1 rfl rfl))

/-! ## Two instances -/

/-- The first instance serves a page; a second one finds 8000 and 8001
taken, and serves its own; then the first is gone. -/
def twoInstances : List Step :=
  [.launch 0 false 7, .bind 0, .bind6 0 true, .bind 0, .bind6 0 true, .request 0 .inet,
    .launch 1 false 7, .bind 1, .bind 1, .bind 1, .bind6 1 true, .bind 1, .bind6 1 false,
    .request 1 .inet, .exit 0, .close ⟨.inet, 8001, false, some 0⟩]

theorem page_reaches_server_second : ∃ s : Machine,
    (s.instances 1).boot = .serving 8002 8003 ∧ ∃ page ∈ s.pages, page.server = 1 ∧
      page.wsPort = 8003 ∧ ∀ l ∈ s.listeners, l.family = .inet → l.port = 8003 →
        l.owner = some 1 := by
  obtain ⟨s, hs, hend⟩ := reach_of_replay
    (p := fun s : Machine => decide ((s.instances 1).boot = .serving 8002 8003 ∧
      ∃ page ∈ s.pages, page.server = 1))
    (show (replay Machine.step Free .start twoInstances).map _ = some true by decide)
  obtain ⟨hserving, page, hpage, hserver⟩ := of_decide_eq_true hend
  have hserving' : (s.instances page.server).boot = .serving 8002 8003 := by
    rw [hserver]
    exact hserving
  obtain ⟨-, hport, -, halone, -⟩ := page_reaches_server hs hpage hserving'
  refine ⟨s, hserving, page, hpage, hserver, hport, fun l hl hfamily hlport => ?_⟩
  rw [← hserver]
  exact halone l hl hfamily (hlport.trans hport.symm)

end ServerPorts

end Zmux
