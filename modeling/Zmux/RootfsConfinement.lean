import Zmux.TarDisk

/-!
# What an extraction leaves alone

`_safe_extract` of `linuxenv.py` looks at the names of the members only. A
link that one member makes leads a later one outside the target
(`link_leads_out`), and where a link cannot be made, what it names is written
through whatever stands in its place. Where every path that is used leads into
the target at that moment (`AllLand`), nothing outside is created or modified
(`safeExtract_confined`): not through the names, not through the inodes that
hard links share, not by the attributes that are set at the end.

The invariants are all of the form that something holds of the disk as long as
all has landed so far (`Whenever`).
-/

namespace Zmux

namespace TarDisk

open PathTree

variable (sys : System) (root : List Word)

/-! ## Landing -/

/-- With the links of the moment the path leads into the target. -/
def Leads (t : PathTree Word ℕ) (path : FsPath) : Prop :=
  ∀ r ∈ t.resolve sys.limit [] path.hops, root <+: r

instance (t : PathTree Word ℕ) (path : FsPath) : Decidable (Leads sys root t path) :=
  inferInstanceAs (Decidable (∀ r ∈ t.resolve sys.limit [] path.hops, root <+: r))

/-- Every path that was used did so. -/
def AllLand (turns : List Turn) : Prop := ∀ turn ∈ turns, Leads sys root turn.tree turn.path

instance (turns : List Turn) : Decidable (AllLand sys root turns) :=
  inferInstanceAs (Decidable (∀ turn ∈ turns, _))

theorem Leads.confined {sys : System} {root : List Word} {t t' : PathTree Word ℕ} {path : FsPath}
    (h : Leads sys root t path) (hsame : Confined (withIn root) t t') :
    Leads sys root t' path := by
  intro r hr
  rw [Option.mem_def, hsame.resolve] at hr
  exact h r hr

/-! ## What is kept -/

/-- What stands outside is what stood there, with its attributes and its
content. -/
def Untouched (d₀ d : Disk) : Prop :=
  ∀ q, ¬root <+: q → d.tree.entry q = d₀.tree.entry q ∧ d.attr q = d₀.attr q
    ∧ ∀ n, d₀.tree.entry q = some (.file n) → d.inode n = d₀.inode n

/-- No file in the target has a name outside. -/
def Apart (d₀ d : Disk) : Prop :=
  ∀ p n, root <+: p → d.tree.entry p = some (.file n) →
    ∀ q, ¬root <+: q → d₀.tree.entry q ≠ some (.file n)

structure Kept (d₀ d : Disk) : Prop where
  untouched : Untouched root d₀ d
  apart : Apart root d₀ d
  dir : d.tree.entry root = some .dir
  next : d₀.next ≤ d.next

namespace Kept

variable {root} {d₀ d : Disk} {p q : List Word} {n : ℕ}

theorem ne_of_outside (hp : root <+: p) (hq : ¬root <+: q) : q ≠ p := by
  rintro rfl
  exact hq hp

/-- A name in the target comes to stand for a file in the target, a
directory or a link. -/
theorem enter (h : Kept root d₀ d) {e : TreeEntry Word ℕ} (hputs : d.tree.Puts p)
    (he : ∀ n, e = .file n → n < d.next) (hp : root <+: p)
    (hlinked : ∀ n, e = .file n → ∃ p', root <+: p' ∧ d.tree.entry p' = some (.file n)) :
    Kept root d₀ (d.enter p e hputs he) where
  untouched q hq := by
    obtain ⟨hentry, hattr, hinode⟩ := h.untouched q hq
    exact ⟨(entry_put_ne hputs (ne_of_outside hp hq)).trans hentry, hattr, hinode⟩
  apart p' n hp' hfile := by
    by_cases heq : p' = p
    · have hput : (d.tree.put p e hputs).entry p' = some (.file n) := hfile
      rw [heq, entry_put_self hputs] at hput
      obtain ⟨p'', hp'', hfile'⟩ := hlinked n (Option.some.inj hput)
      exact h.apart p'' n hp'' hfile'
    · exact h.apart p' n hp' ((entry_put_ne hputs heq).symm.trans hfile)
  dir := by
    have hne : root ≠ p := by
      rintro rfl
      exact hputs.place h.dir
    exact (entry_put_ne hputs hne).trans h.dir
  next := h.next

theorem create (h : Kept root d₀ d) (i : Inode) (hputs : d.tree.Puts p) (hp : root <+: p) :
    Kept root d₀ (d.create p i hputs) where
  untouched q hq := by
    obtain ⟨hentry, hattr, hinode⟩ := h.untouched q hq
    refine ⟨(entry_put_ne hputs (ne_of_outside hp hq)).trans hentry, hattr, fun n hn => ?_⟩
    have hold := Nat.lt_of_lt_of_le (d₀.fresh q n hn) h.next
    exact (Function.update_of_ne (Nat.ne_of_lt hold) ..).trans (hinode n hn)
  apart p' n hp' hfile q hq hn := by
    by_cases heq : p' = p
    · have hput : (d.tree.put p (.file d.next) hputs).entry p' = some (.file n) := hfile
      rw [heq, entry_put_self hputs] at hput
      obtain rfl := TreeEntry.file.inj (Option.some.inj hput)
      exact absurd (d₀.fresh q d.next hn) (Nat.not_lt.mpr h.next)
    · exact h.apart p' n hp' ((entry_put_ne hputs heq).symm.trans hfile) q hq hn
  dir := by
    have hne : root ≠ p := by
      rintro rfl
      exact hputs.place h.dir
    exact (entry_put_ne hputs hne).trans h.dir
  next := Nat.le_succ_of_le h.next

theorem setAttr (h : Kept root d₀ d) (hp : root <+: p) (a : Attr) :
    Kept root d₀ (d.setAttr p a) where
  untouched q hq := by
    obtain ⟨hentry, hattr, hinode⟩ := h.untouched q hq
    exact ⟨hentry, (Function.update_of_ne (ne_of_outside hp hq) ..).trans hattr, hinode⟩
  apart := h.apart
  dir := h.dir
  next := h.next

theorem makeDir (h : Kept root d₀ d) (a : Attr) (hputs : d.tree.Puts p) (hp : root <+: p) :
    Kept root d₀ (d.makeDir p a hputs) :=
  (h.enter hputs (fun _ he => by cases he) hp fun _ he => by cases he).setAttr hp a

/-- A file in the target is written, under whatever name. -/
theorem setInode (h : Kept root d₀ d) (hp : root <+: p) (hfile : d.tree.entry p = some (.file n))
    (i : Inode) : Kept root d₀ (d.setInode n i) where
  untouched q hq := by
    obtain ⟨hentry, hattr, hinode⟩ := h.untouched q hq
    refine ⟨hentry, hattr, fun n' hn' => ?_⟩
    have hne : n' ≠ n := by
      rintro rfl
      exact h.apart p n' hp hfile q hq hn'
    exact (Function.update_of_ne hne ..).trans (hinode n' hn')
  apart := h.apart
  dir := h.dir
  next := h.next

theorem remove (h : Kept root d₀ d) (hp : root <+: p) (hdir : d.tree.entry p ≠ some .dir)
    (hne : p ≠ []) : Kept root d₀ (d.remove p hne) where
  untouched q hq := by
    obtain ⟨hentry, hattr, hinode⟩ := h.untouched q hq
    refine ⟨?_, hattr, hinode⟩
    exact (entry_erase _ hne q).trans ((if_neg fun hle => hq (hp.trans hle)).trans hentry)
  apart p' n hp' hfile := by
    have herase : (d.tree.erase p).entry p' = some (.file n) := hfile
    rw [entry_erase _ hne] at herase
    split_ifs at herase
    exact h.apart p' n hp' herase
  dir := by
    refine (entry_erase _ hne root).trans ((if_neg fun hle => hdir ?_).trans h.dir)
    rw [List.IsPrefix.eq_of_length_le hle hp.length_le]
    exact h.dir
  next := h.next

end Kept

/-! ## Where a path is -/

section Paths

variable {sys root} {path : FsPath} {d d' : Disk} {p : List Word}

theorem hops_last {name : Word} (hlast : path.comps.getLast? = some name) (hdot : name ≠ ['.'])
    (hup : name ≠ ['.', '.']) : path.hops = path.parent.hops ++ [name].map .into := by
  obtain ⟨front, hfront⟩ := List.getLast?_eq_some_iff.mp hlast
  rw [FsPath.hops, FsPath.hops, FsPath.parent, hfront, List.dropLast_concat, hops, hops,
    List.filter_append, List.map_append, ← List.append_assoc]
  simp [hdot, hup]

theorem slot_cases (h : slot sys path d = some p) : ∃ dir name,
    path.comps.getLast? = some name ∧ d.tree.find sys.limit [] path.parent.hops = some dir
      ∧ d.tree.entry dir = some .dir ∧ p = dir ++ [name]
      ∧ path.hops = path.parent.hops ++ [name].map .into := by
  rw [slot] at h
  split at h
  · rename_i name hlast
    split_ifs at h with hspecial
    rw [not_or] at hspecial
    split at h
    · rename_i dir hfind
      split_ifs at h with hdir
      exact ⟨dir, name, hlast, hfind, isDirAt_iff.mp hdir, (Option.some.inj h).symm,
        hops_last hlast hspecial.1 hspecial.2⟩
    · cases h
  · cases h

/-- Where no link is, it resolves there too. -/
theorem slot_resolve (h : slot sys path d = some p) (hplain : PathTree.Plain d.tree p) :
    d.tree.resolve sys.limit [] path.hops = some p := by
  obtain ⟨dir, name, -, hfind, -, rfl, hhops⟩ := slot_cases h
  rw [hhops]
  exact resolve_append_names (resolve_of_find hfind) (down_singleton hplain)

theorem locate_resolve (h : locate sys path d = some p) :
    d.tree.resolve sys.limit [] path.hops = some p := by
  rw [locate] at h
  split at h
  · rename_i q hfind
    split_ifs at h
    obtain rfl := Option.some.inj h
    exact resolve_of_find hfind
  · cases h

theorem make_ok {f : (p : List Word) → d.tree.Puts p → Disk} (h : make sys path d f = .ok d') :
    ∃ p hputs, slot sys path d = some p ∧ d.tree.entry p = none ∧ d' = f p hputs := by
  rw [make] at h
  split at h
  · cases h
  · rename_i p hslot
    split_ifs at h with hsome hputs
    exact ⟨p, hputs, hslot, Option.not_isSome_iff_eq_none.mp hsome, (Except.ok.inj h).symm⟩

theorem unlink_ok (h : unlink sys path d = .ok d') :
    ∃ p e hp, slot sys path d = some p ∧ d.tree.entry p = some e ∧ e ≠ .dir
      ∧ d' = d.remove p hp := by
  rw [unlink] at h
  split at h
  · cases h
  · rename_i p hslot
    split at h
    · cases h
    · cases h
    · rename_i e hdir he
      split_ifs at h with hp
      exact ⟨p, e, hp, hslot, he, fun heq => hdir heq, (Except.ok.inj h).symm⟩

theorem link_ok {src : FsPath} (h : link sys src path d = .ok d') :
    ∃ p e, slot sys src d = some p ∧ d.tree.entry p = some e ∧ e ≠ .dir
      ∧ ∃ q hputs he, slot sys path d = some q ∧ d.tree.entry q = none
        ∧ d' = d.enter q e hputs he := by
  rw [link] at h
  split at h
  · cases h
  · rename_i p hslot
    split at h
    · cases h
    · cases h
    · rename_i e hdir he
      obtain ⟨q, hputs, hq, hnone, rfl⟩ := make_ok h
      exact ⟨p, e, hslot, he, fun heq => hdir heq, q, hputs, _, hq, hnone, rfl⟩

/-- A name that is made on the way to the target's inside is inside: the
target is there. -/
theorem made_inside (hroot : d.tree.entry root = some .dir) (hnone : d.tree.entry p = none)
    {names : List Word} (hle : root <+: p ++ names) : root <+: p := by
  rcases List.prefix_or_prefix_of_prefix hle (List.prefix_append p names) with h | h
  · exact h
  · by_cases heq : p = root
    · exact heq ▸ List.prefix_rfl
    · have hdir := entry_above (by rw [hroot]; exact Option.some_ne_none _) h heq
      rw [hnone] at hdir
      cases hdir

end Paths

/-! ## As long as all has landed -/

/-- As long as all has landed, the disk is like this. -/
def Whenever (sys : System) (root : List Word) (J : Disk → Prop) (s : Session) : Prop :=
  AllLand sys root s.locals → J s.disk

section Whenever

variable {sys root} {J J' : Disk → Prop} {path : FsPath}

theorem Whenever.imp {s : Session} (h : Whenever sys root J s) (hJ : ∀ d, J d → J' d) :
    Whenever sys root J' s := fun hall => hJ _ (h hall)

theorem calm_whenever : Calm (Whenever sys root J) := fun _ _ hs => hs

theorem stat_keeps (f : Disk → Bool) : Keeps (Whenever sys root J) (stat sys f) :=
  Triple.tryCatch (Faults.look_keeps calm_whenever _) fun _ => Triple.pure fun _ hs => hs

theorem call_keeps {f : Disk → Except OSError Disk} (h : ∀ d d', J d → f d = .ok d' → J d') :
    Keeps (Whenever sys root J) (call sys f) :=
  Faults.call_keeps calm_whenever fun s d _ hs hok hall => h s.disk d (hs hall) hok

/-- The call takes one into the other; where it raises, nothing is changed. -/
theorem call_ends {f : Disk → Except OSError Disk} (h : ∀ d d', J d → f d = .ok d' → J' d') :
    Triple (Whenever sys root J) (call sys f) (fun _ => Whenever sys root J')
      fun _ => Whenever sys root J := by
  have hcall : Triple (Whenever sys root J) (call sys f) (fun _ => Whenever sys root J')
      fun e s => Whenever sys root J s ∧ _ :=
    Faults.call_triple calm_whenever fun s d _ hs hok hall => h s.disk d (hs hall) hok
  exact hcall.conseq (fun _ hs => hs) (fun _ _ hs => hs) fun _ _ hs => hs.1

theorem turn_leads {raised : Raised → Session → Prop} : Triple (Whenever sys root J) (turn path)
    (fun _ => Whenever sys root fun d => J d ∧ Leads sys root d.tree path) raised :=
  Triple.modify fun _ hs hall =>
    ⟨hs fun turn hturn => hall turn (List.mem_cons_of_mem _ hturn), hall _ List.mem_cons_self⟩

end Whenever

/-! ## Through a path -/

/-- The target is kept, and the path leads into it. -/
structure Inside (sys : System) (root : List Word) (d₀ : Disk) (path : FsPath) (d : Disk) :
    Prop where
  kept : Kept root d₀ d
  leads : Leads sys root d.tree path

namespace Inside

variable {sys root} {d₀ d d' : Disk} {path : FsPath} {p : List Word} {m : TarMember}

theorem located (hs : Inside sys root d₀ path d) (h : locate sys path d = some p) : root <+: p :=
  hs.leads p (locate_resolve h)

theorem made (hs : Inside sys root d₀ path d) (h : slot sys path d = some p)
    (hplain : PathTree.Plain d.tree p) : root <+: p :=
  hs.leads p (slot_resolve h hplain)

theorem makeDir (hs : Inside sys root d₀ path d) (hp : root <+: p) (hputs : d.tree.Puts p)
    (hnone : d.tree.entry p = none) (a : Attr) : Inside sys root d₀ path (d.makeDir p a hputs) where
  kept := hs.kept.makeDir a hputs hp
  leads := hs.leads.confined (confined_put hputs hp (plain_of_none hnone) rfl)

theorem create (hs : Inside sys root d₀ path d) (hp : root <+: p) (hputs : d.tree.Puts p)
    (hnone : d.tree.entry p = none) (i : Inode) :
    Inside sys root d₀ path (d.create p i hputs) where
  kept := hs.kept.create i hputs hp
  leads := hs.leads.confined (confined_put hputs hp (plain_of_none hnone) rfl)

theorem setInode (hs : Inside sys root d₀ path d) (hp : root <+: p) {n : ℕ}
    (hfile : d.tree.entry p = some (.file n)) (i : Inode) :
    Inside sys root d₀ path (d.setInode n i) where
  kept := hs.kept.setInode hp hfile i
  leads := hs.leads

theorem setBytes (hs : Inside sys root d₀ path d) {bytes : List UInt8}
    (hok : TarDisk.setBytes sys path bytes d = .ok d') : Inside sys root d₀ path d' := by
  rw [TarDisk.setBytes] at hok
  split at hok
  · cases hok
  · rename_i p hlocate
    split at hok
    · rename_i n hfile
      obtain rfl := Except.ok.inj hok
      exact hs.setInode (hs.located hlocate) hfile _
    · cases hok

theorem makefile_keeps : Keeps (Whenever sys root (Inside sys root d₀ path))
    (makefile sys m path) := by
  refine Triple.bind (call_keeps fun d d' hs hok => ?_) fun _ => Triple.get_bind fun s hs => ?_
  · rw [openWb] at hok
    split at hok
    · cases hok
    · rename_i p hlocate
      have hp := hs.located hlocate
      split at hok
      · rename_i n hfile
        obtain rfl := Except.ok.inj hok
        exact hs.setInode hp hfile _
      · rename_i hnone
        split_ifs at hok with hputs
        obtain rfl := Except.ok.inj hok
        exact hs.create hp hputs hnone _
      · cases hok
  · have hwrite : Keeps (Whenever sys root (Inside sys root d₀ path))
        (sys.faults.write (TarDisk.setBytes sys path m.bytes)
          (TarDisk.setBytes sys path (m.bytes.take (sys.copied s.calls)))) :=
      Faults.write_keeps calm_whenever (fun _ _ _ hs hok hall => (hs hall).setBytes hok)
        fun _ _ _ hs hok hall => (hs hall).setBytes hok
    exact hwrite.conseq (fun s' hs' => hs' ▸ hs) (fun _ _ hs => hs) fun _ _ hs => hs

theorem makedir_keeps : Keeps (Whenever sys root (Inside sys root d₀ path))
    (makedir sys path) := by
  refine Triple.tryCatch (call_keeps fun d d' hs hok => ?_)
    fun e => Triple.ite (fun _ => ?_) fun _ => Triple.throw fun _ hs => hs
  · obtain ⟨p, hputs, hslot, hnone, rfl⟩ := make_ok hok
    exact hs.makeDir (hs.made hslot (plain_of_none hnone)) hputs hnone _
  · exact Triple.bind (stat_keeps _) fun there =>
      Triple.ite (fun _ => Triple.pure fun _ hs => hs) fun _ => Triple.throw fun _ hs => hs

theorem mknod_keeps : Keeps (Whenever sys root (Inside sys root d₀ path))
    (call sys (mknod sys path)) := by
  refine call_keeps fun d d' hs hok => ?_
  obtain ⟨p, hputs, hslot, hnone, rfl⟩ := make_ok hok
  exact hs.create (hs.made hslot (plain_of_none hnone)) hputs hnone _

theorem makeMember_keeps : Keeps (Whenever sys root (Inside sys root d₀ path))
    (makeMember sys m path) := by
  rw [makeMember]
  split
  · exact makedir_keeps
  · exact mknod_keeps
  · exact makefile_keeps

theorem setting_keeps (change : Attr → Attr) : Keeps (Whenever sys root (Inside sys root d₀ path))
    (setting sys (setAttr sys path change)) := by
  refine Triple.tryCatch (call_keeps fun d d' hs hok => ?_) fun e => Triple.throw fun _ hs => hs
  rw [setAttr] at hok
  split at hok
  · cases hok
  · rename_i p hlocate
    have hp := hs.located hlocate
    split at hok
    · rename_i n hfile
      obtain rfl := Except.ok.inj hok
      exact hs.setInode hp hfile _
    · obtain rfl := Except.ok.inj hok
      exact ⟨hs.kept.setAttr hp _, hs.leads⟩
    · cases hok

theorem chown_keeps : Keeps (Whenever sys root (Inside sys root d₀ path)) (chown sys m path) :=
  Triple.ite (fun _ => setting_keeps _) fun _ => Triple.pure fun _ hs => hs

end Inside

/-! Directories on the way -/

section Upperdirs

variable {sys root} {d₀ d d' : Disk} {path : FsPath}

theorem hops_append (front back : List Word) : hops (front ++ back) = hops front ++ hops back := by
  rw [hops, hops, hops, List.filter_append, List.map_append]

theorem hops_safe {names : List Word} (hsafe : ['.', '.'] ∉ names) :
    ∃ names' : List Word, hops names = names'.map .into := by
  refine ⟨names.filter fun c => decide (c ≠ ['.']), List.map_congr_left fun c hc => if_neg ?_⟩
  rintro rfl
  exact hsafe (List.mem_filter.mp hc).1

theorem upperdir_ok {base : List (Hop Word)} {front back : List Word}
    (hs : Inside sys root d₀ ⟨base, front ++ back⟩ d) (hsafe : ['.', '.'] ∉ back)
    (hok : mkdir sys ⟨base, front⟩ d = .ok d') : Inside sys root d₀ ⟨base, front ++ back⟩ d' := by
  obtain ⟨p, hputs, hslot, hnone, rfl⟩ := make_ok hok
  refine hs.makeDir ?_ hputs hnone _
  obtain ⟨names, hnames⟩ := hops_safe hsafe
  -- nothing is below what is not there, so the whole path resolves below it
  have hdown : Down d.tree p names := fun q hq _ => plain_of_none (by
    by_contra hsome
    have hdir := entry_above hsome hq.1 hq.2.symm
    rw [hnone] at hdir
    cases hdir)
  have hresolve := resolve_append_names (slot_resolve hslot (plain_of_none hnone)) hdown
  have hinside : root <+: p ++ names := by
    refine hs.leads _ ?_
    rw [FsPath.hops, hops_append, ← List.append_assoc, hnames]
    exact hresolve
  exact made_inside hs.kept.dir hnone hinside

theorem makedirsBack_keeps {base : List (Hop Word)} {back rest : List Word}
    (hsafe : ['.', '.'] ∉ back.reverse ++ rest) :
    Keeps (Whenever sys root (Inside sys root d₀ ⟨base, back.reverse ++ rest⟩))
      (makedirsBack sys base back) := by
  induction back generalizing rest with
  | nil =>
      exact call_keeps fun d d' hs hok =>
        upperdir_ok hs (fun hmem => hsafe (List.mem_append_right _ hmem)) hok
  | cons c above ih =>
      have hmake : Keeps
          (Whenever sys root (Inside sys root d₀ ⟨base, (c :: above).reverse ++ rest⟩))
          (call sys (mkdir sys ⟨base, (c :: above).reverse⟩)) :=
        call_keeps fun d d' hs hok =>
          upperdir_ok hs (fun hmem => hsafe (List.mem_append_right _ hmem)) hok
      have hassoc : (c :: above).reverse ++ rest = above.reverse ++ ([c] ++ rest) := by
        rw [List.reverse_cons, List.append_assoc]
      rw [hassoc] at hmake hsafe ⊢
      refine Triple.bind (stat_keeps _) fun there => Triple.ite (fun _ => hmake) fun _ => ?_
      refine Triple.bind (Triple.tryCatch (ih hsafe) fun e => ?_) fun _ =>
        Triple.ite (fun _ => Triple.pure fun _ hs => hs) fun _ => hmake
      exact Triple.ite (fun _ => Triple.pure fun _ hs => hs) fun _ => Triple.throw fun _ hs => hs

/-- Where the path itself, or its directory, leads into the target. -/
theorem upperdirs_keeps {rest : List Word} (hsafe : ['.', '.'] ∉ path.parent.comps ++ rest) :
    Keeps (Whenever sys root (Inside sys root d₀ ⟨path.base, path.parent.comps ++ rest⟩))
      (upperdirs sys path) := by
  refine Triple.bind (stat_keeps _) fun there =>
    Triple.ite (fun _ => Triple.pure fun _ hs => hs) fun _ => ?_
  have hback : path.parent.comps ++ rest = path.parent.comps.reverse.reverse ++ rest := by
    rw [List.reverse_reverse]
  rw [hback] at hsafe ⊢
  exact makedirsBack_keeps hsafe

end Upperdirs

/-! ## Links -/

section Links

variable {sys root} {d₀ d d' : Disk} {path : FsPath} {m : TarMember}

/-- The name stands in the target. -/
def Placed (sys : System) (root : List Word) (path : FsPath) (d : Disk) : Prop :=
  ∀ p ∈ slot sys path d, root <+: p

theorem Inside.placed (hs : Inside sys root d₀ path.parent d) : Placed sys root path d := by
  intro p hp
  obtain ⟨dir, name, -, hfind, -, rfl, -⟩ := slot_cases hp
  exact (hs.leads dir (resolve_of_find hfind)).trans (List.prefix_append ..)

/-- Also when something has been taken away. -/
theorem Placed.remove (h : Placed sys root path d) {p : List Word} (hp : p ≠ []) :
    Placed sys root path (d.remove p hp) := by
  intro q hq
  obtain ⟨dir, name, hlast, hfind, hdir, rfl, hhops⟩ := slot_cases hq
  have hsub : ∀ r e, (d.tree.erase p).entry r = some e → d.tree.entry r = some e := by
    intro r e he
    rw [entry_erase _ hp] at he
    split_ifs at he
    exact he
  refine h _ ?_
  have hslot : slot sys path (d.remove p hp) = some (dir ++ [name]) := hq
  rw [slot, hlast] at hslot ⊢
  dsimp only at hslot ⊢
  split_ifs at hslot ⊢ with hspecial
  rw [find_mono hsub hdir hfind]
  dsimp only
  rw [if_pos (isDirAt_iff.mpr (hsub _ _ hdir))]
  rfl

/-- The target is kept, and the name stands in it. -/
structure KeptAt (sys : System) (root : List Word) (d₀ : Disk) (path : FsPath) (d : Disk) :
    Prop where
  kept : Kept root d₀ d
  placed : Placed sys root path d

theorem Inside.keptAt (hs : Inside sys root d₀ path.parent d) : KeptAt sys root d₀ path d :=
  ⟨hs.kept, hs.placed⟩

theorem unlink_keeps : Keeps (Whenever sys root (KeptAt sys root d₀ path))
    (call sys (unlink sys path)) := by
  refine call_keeps fun d d' hs hok => ?_
  obtain ⟨p, e, hne, hslot, he, hdir, rfl⟩ := unlink_ok hok
  refine ⟨hs.kept.remove (hs.placed p hslot) ?_ hne, hs.placed.remove hne⟩
  rw [he]
  exact fun heq => hdir (Option.some.inj heq)

theorem symlink_ends {linkname : Word} : Triple (Whenever sys root (KeptAt sys root d₀ path))
    (call sys (symlink sys linkname path)) (fun _ => Whenever sys root (Kept root d₀))
    fun _ => Whenever sys root (Kept root d₀) := by
  refine (call_ends fun d d' hs hok => ?_).conseq (fun _ hs => hs) (fun _ _ hs => hs)
    fun _ _ hs => hs.imp fun _ hd => hd.kept
  obtain ⟨p, hputs, hslot, hnone, rfl⟩ := make_ok hok
  exact hs.kept.enter hputs (fun _ he => by cases he) (hs.placed p hslot) fun _ he => by cases he

theorem linking_ends {src : FsPath} : Triple (Whenever sys root (KeptAt sys root d₀ path))
    (linking sys src path) (fun _ => Whenever sys root (Kept root d₀))
    fun _ => Whenever sys root (Kept root d₀) := by
  refine Triple.bind turn_leads fun _ => (call_ends fun d d' hs hok => ?_).conseq
    (fun _ hs => hs) (fun _ _ hs => hs) fun _ _ hs => hs.imp fun _ hd => hd.1.kept
  obtain ⟨hs, hsrc⟩ := hs
  obtain ⟨p, e, hslot, he, -, q, hputs, hfresh, hq, -, rfl⟩ := link_ok hok
  have hp : root <+: p := Inside.placed ⟨hs.kept, hsrc⟩ p hslot
  exact hs.kept.enter hputs hfresh (hs.placed q hq) fun n hn => ⟨p, hp, by rw [he, hn]⟩

theorem replacing_ends {x : Call PUnit}
    (hx : Triple (Whenever sys root (KeptAt sys root d₀ path)) x
      (fun _ => Whenever sys root (Kept root d₀)) fun _ => Whenever sys root (Kept root d₀)) :
    Triple (Whenever sys root (KeptAt sys root d₀ path)) (replacing sys path x)
      (fun _ => Whenever sys root (Kept root d₀)) fun _ => Whenever sys root (Kept root d₀) := by
  have hkept : ∀ (e : Raised) s, Whenever sys root (KeptAt sys root d₀ path) s →
      Whenever sys root (Kept root d₀) s := fun _ _ hs => hs.imp fun _ hd => hd.kept
  refine Triple.bind ((stat_keeps _).conseq (fun _ hs => hs) (fun _ _ hs => hs) hkept)
    fun there => Triple.ite (fun _ => ?_) fun _ => hx
  exact Triple.bind (unlink_keeps.conseq (fun _ hs => hs) (fun _ _ hs => hs) hkept) fun _ => hx

theorem linkItself_ends {linked : Bool} : Triple (Whenever sys root (KeptAt sys root d₀ path))
    (linkItself sys linked m path) (fun _ => Whenever sys root (Kept root d₀))
    fun _ => Whenever sys root (Kept root d₀) := by
  have hkept : ∀ s, Whenever sys root (KeptAt sys root d₀ path) s →
      Whenever sys root (Kept root d₀) s := fun _ hs => hs.imp fun _ hd => hd.kept
  refine Triple.ite (fun _ => ?_) fun _ => Triple.ite (fun _ => ?_) fun _ => Triple.throw hkept
  · exact Triple.bind (replacing_ends symlink_ends) fun _ => Triple.pure fun _ hs => hs
  · refine Triple.bind ((stat_keeps _).conseq (fun _ hs => hs) (fun _ _ hs => hs) fun _ => hkept)
      fun there => Triple.ite (fun _ => ?_) fun _ => Triple.pure hkept
    refine Triple.ite (fun _ => ?_) fun _ => ?_
    · exact Triple.bind (replacing_ends linking_ends) fun _ => Triple.pure fun _ hs => hs
    · exact Triple.bind linking_ends fun _ => Triple.pure fun _ hs => hs

variable {archive before : List TarMember} {again : List TarMember → TarMember → Call PUnit}

theorem extractTarget_keeps {missing : Raised}
    (hagain : ∀ before found, Keeps (Whenever sys root (Kept root d₀)) (again before found)) :
    Keeps (Whenever sys root (Kept root d₀)) (extractTarget archive before m missing again) := by
  rw [extractTarget]
  split
  · exact Triple.throw fun _ hs => hs
  · exact hagain _ _

/-- Whether the link is made or what it names. -/
theorem makelink_ends {linked : Bool}
    (hagain : ∀ before found, Keeps (Whenever sys root (Kept root d₀)) (again before found)) :
    Triple (Whenever sys root (KeptAt sys root d₀ path))
      (makelink sys archive linked before m path again)
      (fun _ => Whenever sys root (Kept root d₀)) fun _ => Whenever sys root (Kept root d₀) := by
  refine Triple.ite (fun _ => ?_) fun _ => ?_
  · refine Triple.tryCatch (Triple.bind linkItself_ends fun made => Triple.ite
      (fun _ => Triple.pure fun _ hs => hs) fun _ => extractTarget_keeps hagain) fun e => ?_
    refine Triple.ite (fun _ => ?_) fun _ => Triple.throw fun _ hs => hs
    exact Triple.tryCatch (extractTarget_keeps hagain) fun e => Triple.throw fun _ hs => hs
  · have hfirst : Triple (Whenever sys root (KeptAt sys root d₀ path)) (do
        let made ← linkItself sys linked m path
        pure (if made then none else some Raised.key))
        (fun _ => Whenever sys root (Kept root d₀)) fun _ => Whenever sys root (Kept root d₀) :=
      Triple.bind linkItself_ends fun made => Triple.pure fun _ hs => hs
    refine Triple.bind (Triple.tryCatch hfirst fun e => Triple.ite
      (fun _ => Triple.pure fun _ hs => hs) fun _ => Triple.throw fun _ hs => hs) fun missing => ?_
    cases missing with
    | none => exact Triple.pure fun _ hs => hs
    | some missing => exact extractTarget_keeps hagain

end Links

/-! ## Runs -/

section Runs

variable {sys root} {d₀ : Disk} {path : FsPath} {m : TarMember}

theorem kept_of_inside {s : Session} (hs : Whenever sys root (Inside sys root d₀ path) s) :
    Whenever sys root (Kept root d₀) s := hs.imp fun _ hd => hd.kept

theorem turn_inside : Triple (Whenever sys root (Kept root d₀)) (turn path)
    (fun _ => Whenever sys root (Inside sys root d₀ path))
    fun _ => Whenever sys root (Kept root d₀) :=
  turn_leads.conseq (fun _ hs => hs) (fun _ _ hs => hs.imp fun _ hd => ⟨hd.1, hd.2⟩)
    fun _ _ hs => hs

theorem lchown_keeps (change : Attr → Attr) : Keeps (Whenever sys root (KeptAt sys root d₀ path))
    (setting sys (setAttrHere sys path change)) := by
  refine Triple.tryCatch (call_keeps fun d d' hs hok => ?_) fun e => Triple.throw fun _ hs => hs
  rw [setAttrHere] at hok
  split at hok
  · cases hok
  · rename_i p hslot
    have hp := hs.placed p hslot
    split at hok
    · rename_i n hfile
      obtain rfl := Except.ok.inj hok
      exact ⟨hs.kept.setInode hp hfile _, hs.placed⟩
    · obtain rfl := Except.ok.inj hok
      exact ⟨hs.kept.setAttr hp _, hs.placed⟩
    · obtain rfl := Except.ok.inj hok
      exact hs
    · cases hok

theorem setAttrs_keeps : Keeps (Whenever sys root (Kept root d₀)) (setAttrs sys m path) := by
  refine Triple.ite (fun _ => Triple.ite (fun _ => ?_) fun _ => Triple.pure fun _ hs => hs)
    fun _ => Triple.bind turn_inside fun _ => ?_
  · refine Triple.bind turn_inside fun _ => (lchown_keeps _).conseq
      (fun _ hs => hs.imp fun _ hd => hd.keptAt) (fun _ _ hs => hs.imp fun _ hd => hd.kept)
      fun _ _ hs => hs.imp fun _ hd => hd.kept
  · have hset : Keeps (Whenever sys root (Inside sys root d₀ path)) (do
        chown sys m path
        chmod sys m path
        utime sys m path) :=
      Triple.bind Inside.chown_keeps fun _ => Triple.bind (Inside.setting_keeps _) fun _ =>
        Inside.setting_keeps _
    exact hset.conseq (fun _ hs => hs) (fun _ _ => kept_of_inside) fun _ _ => kept_of_inside

/-- By induction on what is left of the stack: what a link names is extracted
at the path of the link. -/
theorem extractMember_keeps {archive : List TarMember} {stack : ℕ} {linked attrs : Bool}
    {before : List TarMember} (hsafe : ['.', '.'] ∉ path.comps) :
    Keeps (Whenever sys root (Kept root d₀))
      (extractMember sys archive stack linked attrs before m path) := by
  induction stack generalizing linked attrs before m with
  | zero => exact Triple.throw fun _ hs => hs
  | succ stack ih =>
      have hattrs : Keeps (Whenever sys root (Kept root d₀))
          (if attrs then setAttrs sys m path else pure ⟨⟩) :=
        Triple.ite (fun _ => setAttrs_keeps) fun _ => Triple.pure fun _ hs => hs
      have hparent : ['.', '.'] ∉ path.parent.comps ++ [] := by
        rw [List.append_nil]
        exact fun hmem => hsafe (List.dropLast_subset _ hmem)
      obtain ⟨rest, hrest⟩ := List.dropLast_prefix path.comps
      rw [extractMember]
      by_cases hlink : m.kind.isLink = true
      · rw [TarMember.place, if_pos hlink, if_pos hlink]
        have hupper : Keeps (Whenever sys root (Inside sys root d₀ path.parent))
            (upperdirs sys path) := by
          have hdirs : Keeps (Whenever sys root
              (Inside sys root d₀ ⟨path.base, path.parent.comps ++ []⟩)) (upperdirs sys path) :=
            upperdirs_keeps hparent
          rwa [List.append_nil] at hdirs
        refine Triple.bind turn_inside fun _ => Triple.bind
          (hupper.conseq (fun _ hs => hs) (fun _ _ hs => hs) fun _ _ => kept_of_inside)
          fun _ => Triple.bind ?_ fun _ => hattrs
        exact (makelink_ends fun before found => ih).conseq
          (fun _ hs => hs.imp fun _ hd => hd.keptAt) (fun _ _ hs => hs) fun _ _ hs => hs
      · rw [TarMember.place, if_neg hlink, if_neg hlink]
        have hwhole : path.parent.comps ++ rest = path.comps := hrest
        have hupper : Keeps (Whenever sys root (Inside sys root d₀ path)) (upperdirs sys path) := by
          have hdirs : Keeps (Whenever sys root
              (Inside sys root d₀ ⟨path.base, path.parent.comps ++ rest⟩)) (upperdirs sys path) :=
            upperdirs_keeps (by rwa [hwhole])
          rwa [hwhole] at hdirs
        refine Triple.bind turn_inside fun _ => Triple.bind
          (hupper.conseq (fun _ hs => hs) (fun _ _ hs => hs) fun _ _ => kept_of_inside)
          fun _ => Triple.bind ?_ fun _ => hattrs
        exact Inside.makeMember_keeps.conseq (fun _ hs => hs) (fun _ _ => kept_of_inside)
          fun _ _ => kept_of_inside

/-- The names that `_safe_extract` accepts. -/
def Step.Safe (sys : System) : Step → Prop
  | .extract _ m => ['.', '.'] ∉ (sys.path m.name).comps
  | .attributes _ => True

theorem run_keeps {archive : List TarMember} {step : Step} (hsafe : step.Safe sys) :
    Keeps (Whenever sys root (Kept root d₀)) (run sys archive step) := by
  refine Triple.tryCatch ?_ fun e =>
    Triple.ite (fun _ => Triple.pure fun _ hs => hs) fun _ => Triple.throw fun _ hs => hs
  cases step with
  | extract before m => exact extractMember_keeps hsafe
  | attributes m =>
      have hset : Keeps (Whenever sys root (Inside sys root d₀ (sys.path m.name))) (do
          chown sys m (sys.path m.name)
          utime sys m (sys.path m.name)
          chmod sys m (sys.path m.name)) :=
        Triple.bind Inside.chown_keeps fun _ => Triple.bind (Inside.setting_keeps _) fun _ =>
          Inside.setting_keeps _
      have hthere (there : Bool) : Keeps (Whenever sys root (Kept root d₀)) (if there then do
          turn (sys.path m.name)
          chown sys m (sys.path m.name)
          utime sys m (sys.path m.name)
          chmod sys m (sys.path m.name)
        else pure ⟨⟩) :=
        Triple.ite (fun _ => Triple.bind turn_inside fun _ => hset.conseq (fun _ hs => hs)
          (fun _ _ => kept_of_inside) fun _ _ => kept_of_inside) fun _ => Triple.pure fun _ hs => hs
      refine Triple.ite (fun _ => ?_) fun _ => ?_
      · exact Triple.bind (Triple.pure fun _ hs => hs) hthere
      · exact Triple.bind (Faults.look_keeps calm_whenever _) hthere

theorem mem_extracts {step : Step} {members : List TarMember} :
    ∀ {before : List TarMember}, step ∈ extracts before members →
      ∃ before', ∃ m ∈ members, step = .extract before' m := by
  induction members with
  | nil =>
      intro before h
      cases h
  | cons m members ih =>
      intro before h
      rcases List.mem_cons.mp h with rfl | h
      · exact ⟨before, m, List.mem_cons_self, rfl⟩
      · obtain ⟨before', m', hm', rfl⟩ := ih h
        exact ⟨before', m', List.mem_cons_of_mem _ hm', rfl⟩

theorem steps_safe {members : List TarMember}
    (h : LinuxInstall.acceptable (members.map TarMember.listed) = true) :
    ∀ step ∈ steps members, step.Safe sys := by
  intro step hstep
  rcases List.mem_append.mp hstep with hstep | hstep
  · obtain ⟨before, m, hm, rfl⟩ := mem_extracts hstep
    rw [LinuxInstall.acceptable, Bool.and_eq_true, Bool.not_eq_true', List.any_eq_false] at h
    have hname := h.1 _ (List.mem_map_of_mem hm)
    intro hup
    refine hname ?_
    rw [LinuxInstall.Member.isUnsafe, Bool.or_eq_true, List.any_eq_true]
    exact Or.inr ⟨['.', '.'], (List.mem_filter.mp hup).1, rfl⟩
  · obtain ⟨m, -, rfl⟩ := List.mem_map.mp hstep
    exact trivial

theorem safeExtract_keeps (archive : Option (List TarMember)) :
    Keeps (Whenever sys root (Kept root d₀)) (safeExtract sys archive) := by
  cases archive with
  | none => exact Triple.throw fun _ hs => hs
  | some members =>
      rw [safeExtract]
      split_ifs with haccept
      · refine Triple.forM fun done step rest heq => run_keeps (steps_safe haccept step ?_)
        rw [heq]
        exact List.mem_append_right _ List.mem_cons_self
      · exact Triple.throw fun _ hs => hs

end Runs

/-- The target is a directory, and new. -/
structure Target (d : Disk) : Prop where
  resolves : d.tree.resolve sys.limit [] sys.target = some root
  dir : d.tree.entry root = some .dir
  empty : ∀ q ∈ below root, d.tree.entry q = none

theorem Target.kept {sys : System} {root : List Word} {d : Disk} (h : Target sys root d) :
    Kept root d d where
  untouched _ _ := ⟨rfl, rfl, fun _ _ => rfl⟩
  apart p n hp hfile := by
    by_cases heq : p = root
    · rw [heq, h.dir] at hfile
      cases hfile
    · rw [h.empty p ⟨hp, heq⟩] at hfile
      cases hfile
  dir := h.dir
  next := Nat.le_refl _

/-- Where every path that is used leads into the target at that moment,
nothing outside is created or modified, whether the extraction raises or
not. -/
theorem safeExtract_confined (sys : System) (root : List Word) (archive : Option (List TarMember))
    {s : Session} (htarget : Target sys root s.disk)
    (hlands : AllLand sys root (finalState (safeExtract sys archive s)).locals) :
    Untouched root s.disk (finalState (safeExtract sys archive s)).disk := by
  have hstart : Whenever sys root (Kept root s.disk) s := fun _ => htarget.kept
  have hend := Triple.final (safeExtract_keeps archive) hstart
  exact (hend hlands).untouched

/-! ## Two archives -/

def sampleSystem (fails : List ℕ) : System where
  limit := 40
  fails n := n ∈ fails
  copied _ := 0
  target := [.into "rootfs".toList]
  superuser := false
  stack := 8
  older := false
  relinks := false
  newAttr := ⟨0o755, 0, 0⟩

def sampleMember (name : String) (kind : Kind) (linkname : String) (bytes : List UInt8) :
    TarMember :=
  ⟨name.toList, kind, linkname.toList, bytes.length, bytes, ⟨0o644, 1, 0⟩⟩

def sampleRoot : List Word := ["rootfs".toList]

/-- With an `etc/passwd` of the host. -/
def sampleEntries : List (List Word × TreeEntry Word ℕ) :=
  [(sampleRoot, .dir), (["etc".toList], .dir), (["etc".toList, "passwd".toList], .file 0)]

theorem sampleEntries_closed : Closed sampleEntries := by decide

def sampleDisk : Disk where
  tree := ofList sampleEntries sampleEntries_closed
  inode _ := ⟨[1], ⟨0o600, 0, 0⟩⟩
  attr _ := ⟨0o755, 0, 0⟩
  next := 1
  fresh q n hn := by
    rcases entry_ofList hn with ⟨-, hdir⟩ | hmem
    · cases hdir
    · simp [sampleEntries] at hmem
      omega

def sampleStart : Session := ⟨sampleDisk, 0, []⟩

theorem sample_target (fails : List ℕ) :
    Target (sampleSystem fails) sampleRoot sampleStart.disk where
  resolves := rfl
  dir := rfl
  empty q hq := by
    by_contra hsome
    obtain ⟨e, he⟩ := Option.ne_none_iff_exists'.mp hsome
    rcases @entry_ofList _ _ q e _ sampleEntries sampleEntries_closed he with ⟨rfl, -⟩ | hmem
    · exact absurd hq.1 (by decide)
    · have hnone : ∀ x ∈ sampleEntries, sampleRoot <+: x.1 → x.1 = sampleRoot := by decide
      exact hq.2 (hnone _ hmem hq.1)

/-- Applets that are links, one of them to an absolute path. -/
def busyboxRootfs : List TarMember :=
  [sampleMember "./bin" .directory "" [], sampleMember "./bin/busybox" .regular "" [7],
    sampleMember "./usr/bin/yes" .symlink "/bin/busybox" [],
    sampleMember "./bin/ash" .symlink "busybox" [],
    sampleMember "./bin/sh" .hardlink "./bin/busybox" []]

theorem sample_lands : AllLand (sampleSystem [16]) sampleRoot
    (finalState (safeExtract (sampleSystem [16]) (some busyboxRootfs) sampleStart)).locals := by
  decide +kernel

/-- One of the links cannot be made, and is a copy. -/
theorem safeExtract_busybox : Untouched sampleRoot sampleDisk
      (finalState (safeExtract (sampleSystem [16]) (some busyboxRootfs) sampleStart)).disk
    ∧ (finalState (safeExtract (sampleSystem [16]) (some busyboxRootfs)
        sampleStart)).disk.tree.entry (sampleRoot ++ ["bin".toList, "ash".toList])
      = some (.file 2) :=
  ⟨@safeExtract_confined (sampleSystem [16]) sampleRoot (some busyboxRootfs) sampleStart
    (sample_target [16]) sample_lands, by decide +kernel⟩

/-- A link, and a file behind it. -/
def leadingOut : List TarMember :=
  [sampleMember "l" .symlink "/etc" [], sampleMember "l/passwd" .regular "" [6]]

/-- It is accepted and extracted, and a file of the host is another one. -/
theorem link_leads_out : LinuxInstall.acceptable (leadingOut.map TarMember.listed) = true
    ∧ ∃ s', safeExtract (sampleSystem []) (some leadingOut) sampleStart = .ok ⟨⟩ s'
      ∧ Target (sampleSystem []) sampleRoot sampleStart.disk
      ∧ ¬Untouched sampleRoot sampleDisk s'.disk := by
  refine ⟨by decide, ?_⟩
  have hrun : (match safeExtract (sampleSystem []) (some leadingOut) sampleStart with
    | .ok _ s' => decide ((s'.disk.inode 0).bytes = [6])
    | .error _ _ => false) = true := by decide +kernel
  split at hrun
  · rename_i s' heq
    refine ⟨s', heq, sample_target [], fun huntouched => ?_⟩
    have hbytes := of_decide_eq_true hrun
    have hsame := (huntouched ["etc".toList, "passwd".toList] (by decide)).2.2 0 rfl
    rw [hsame] at hbytes
    exact absurd hbytes (by decide)
  · cases hrun

end TarDisk

end Zmux
