import Zmux.WheelDisk

/-!
# Where a wheel is extracted to

`_extract` of `zpip.py` on a tree of files, directories and links.
`_safe_members` looks at the names (`Listed`), `_extract` at what they
resolve to in the staging directory. The two checks together keep it there,
whether it raises or not, and the files that come are those of the names
(`extract_triple`).
-/

namespace Zmux

namespace WheelDisk

open PathTree

variable (sys : System)

/-! ## `_extract` -/

/-- The body of its loop. -/
def extractMember (staging : FsPath) (root : List String) (m : RelName × Content) :
    Call PUnit := do
  let s ← get
  match s.disk.resolve sys.limit [] (join staging m.1.raw) with
  | none => throw (.os .refused)
  | some destination =>
    if destination ≠ root ∧ root ∉ parents destination then throw .escapesStaging
    else do
      mkdirParents sys true (destination.dropLast.map .into)
      -- `archive.open`
      call sys .ok
      call sys (openWb sys (destination.map .into))
      copyfileobj sys (destination.map .into) m.2

def extract (staging : FsPath) (archive : Option (List Member)) : Call (List String) :=
  match archive with
  | none => throw (.value .badZipFile)
  | some archive =>
    match safeMembers archive with
    | .error e => throw (.value e)
    | .ok members => do
      let s ← get
      match s.disk.resolve sys.limit [] staging with
      | none => throw (.os .refused)
      | some root => do
        members.forM (extractMember sys staging root)
        pure (members.map fun m => m.1.raw)

/-! ## What `_safe_members` lets through -/

/-- The members that are no directories. -/
def regular (archive : List Member) : List Member := archive.filter fun m => !m.isDir

theorem safeMembersLoop_ok {archive : List Member} {members : List (RelName × Content)} :
    ∀ {seen : List String} {total : ℕ}, safeMembersLoop archive seen total = .ok members →
      total ≤ maxWheelBytes * 3 →
      members.map (fun m => m.1.raw) = (regular archive).map Member.filename
        ∧ total + ((regular archive).map Member.fileSize).sum ≤ maxWheelBytes * 3 := by
  induction archive generalizing members with
  | nil =>
      intro seen total h htotal
      obtain rfl := Except.ok.inj h
      exact ⟨rfl, htotal⟩
  | cons m archive ih =>
      intro seen total h htotal
      rw [safeMembersLoop] at h
      split_ifs at h with hsafe hseen hdir hlarge
      · have hskip : regular (m :: archive) = regular archive :=
          List.filter_cons_of_neg (by rw [hdir]; exact Bool.false_ne_true)
        rw [hskip]
        exact ih h htotal
      · have hkeep : regular (m :: archive) = m :: regular archive :=
          List.filter_cons_of_pos (by rw [Bool.eq_false_iff.mpr hdir]; rfl)
        rw [hkeep]
        split at h
        · cases h
        · rename_i rest hrest
          obtain rfl := Except.ok.inj h
          rw [not_or, Nat.not_lt, Nat.not_lt] at hlarge
          obtain ⟨hnames, hsizes⟩ := ih hrest hlarge.2
          refine ⟨?_, ?_⟩
          · rw [List.map_cons, List.map_cons, hnames]
          · rw [List.map_cons, List.sum_cons, ← Nat.add_assoc]
            exact hsizes

/-- What the names it lets through are. -/
structure Listed (archive : List Member) (names : List String) : Prop where
  listed : names = (regular archive).map Member.filename
  sizes : ((regular archive).map Member.fileSize).sum ≤ 3 * maxWheelBytes
  wheel : ∃ name ∈ names, endsWith ".dist-info/WHEEL" name = true
  record : ∃ name ∈ names, endsWith ".dist-info/RECORD" name = true

theorem safeMembers_ok {archive : List Member} {members : List (RelName × Content)}
    (h : safeMembers archive = .ok members) : Listed archive (members.map fun m => m.1.raw) := by
  rw [safeMembers] at h
  split at h
  · cases h
  · rename_i found hfound
    split_ifs at h with hwheel hrecord
    obtain rfl := Except.ok.inj h
    obtain ⟨hnames, hsizes⟩ := safeMembersLoop_ok hfound (Nat.zero_le _)
    refine ⟨hnames, by omega, ?_, ?_⟩
    · rw [Bool.not_eq_true, Bool.not_eq_false', List.any_eq_true] at hwheel
      obtain ⟨m, hm, hends⟩ := hwheel
      exact ⟨_, List.mem_map_of_mem hm, hends⟩
    · rw [Bool.not_eq_true, Bool.not_eq_false', List.any_eq_true] at hrecord
      obtain ⟨m, hm, hends⟩ := hrecord
      exact ⟨_, List.mem_map_of_mem hm, hends⟩

/-! ## Names that are safe -/

theorem hops_safe {raw : String} (h : safePath raw = true) :
    hops raw = (pathParts raw).map .into := by
  rw [safePath, Bool.and_eq_true, Bool.not_eq_true', Bool.not_eq_true'] at h
  refine List.map_congr_left fun name hname => if_neg ?_
  rintro rfl
  rw [List.contains_eq_mem, decide_eq_false_iff_not] at h
  exact h.2 hname

theorem join_safe {raw : String} (h : safePath raw = true) (base : FsPath) :
    join base raw = base ++ (pathParts raw).map .into := by
  have habsolute : isAbsolute raw = false := by
    rw [safePath, Bool.and_eq_true, Bool.not_eq_true'] at h
    exact h.1
  rw [join, habsolute, if_neg Bool.false_ne_true, hops_safe h]

theorem mem_parents {path front : List String} :
    front ∈ parents path ↔ front <+: path ∧ front ≠ path := by
  rw [parents, List.mem_filter, List.mem_inits, decide_eq_true_eq]

/-! ## What has been extracted -/

/-- The files that have come are those of the names done. -/
structure Extracting (root : List String) (d₀ : Disk) (done : List String) (d : Disk) : Prop where
  confined : Confined (below root) d₀ d
  written : ∀ name ∈ done, pathParts name ≠ []
    ∧ ∃ f, d.entry (root ++ pathParts name) = some (.file f)
  only : ∀ q f, d.entry q = some (.file f) →
    d₀.entry q = some (.file f) ∨ ∃ name ∈ done, q = root ++ pathParts name

namespace Extracting

variable {root : List String} {d₀ d : Disk} {done : List String}

theorem start (root : List String) (d₀ : Disk) : Extracting root d₀ [] d₀ where
  confined := Confined.refl _ _
  written := fun name hname => by cases hname
  only := fun q f hf => Or.inl hf

theorem put_dir (h : Extracting root d₀ done d) {p : List String} (hp : d.Puts p)
    (hbelow : p ∈ below root) (hnone : d.entry p = none) :
    Extracting root d₀ done (d.put p .dir hp) where
  confined := h.confined.trans (confined_put hp hbelow (plain_of_none hnone) rfl)
  written name hname := by
    obtain ⟨hne, f, hf⟩ := h.written name hname
    refine ⟨hne, f, ?_⟩
    rw [entry_put_ne hp, hf]
    rintro heq
    rw [heq, hnone] at hf
    cases hf
  only q f hf := by
    by_cases heq : q = p
    · rw [heq, entry_put_self hp] at hf
      cases hf
    · rw [entry_put_ne hp heq] at hf
      exact h.only q f hf

theorem put_file (h : Extracting root d₀ done d) (hlinks : Linkless (below root) d₀)
    {name : String} (hne : pathParts name ≠ []) (hp : d.Puts (root ++ pathParts name))
    (f : FileData) :
    Extracting root d₀ (done ++ [name]) (d.put (root ++ pathParts name) (.file f) hp) where
  confined := h.confined.trans
    (confined_put hp (mem_below hne) (h.confined.linkless hlinks _ (mem_below hne)) rfl)
  written name' hname' := by
    by_cases heq : root ++ pathParts name' = root ++ pathParts name
    · refine ⟨?_, f, ?_⟩
      · rw [List.append_cancel_left heq]
        exact hne
      · rw [heq, entry_put_self hp]
    · rcases List.mem_append.mp hname' with hdone | hlast
      · rw [entry_put_ne hp heq]
        exact h.written name' hdone
      · rw [List.mem_singleton.mp hlast] at heq
        exact absurd rfl heq
  only q f' hf := by
    by_cases heq : q = root ++ pathParts name
    · exact Or.inr ⟨name, List.mem_append_right _ (List.mem_singleton_self _), heq⟩
    · rw [entry_put_ne hp heq] at hf
      refine (h.only q f' hf).imp_right ?_
      rintro ⟨name', hname', hq⟩
      exact ⟨name', List.mem_append_left _ hname', hq⟩

/-- The order of the names, and how often each comes, is nothing to it. -/
theorem of_mem (h : Extracting root d₀ done d) {done' : List String}
    (hmem : ∀ name, name ∈ done' ↔ name ∈ done) : Extracting root d₀ done' d where
  confined := h.confined
  written name hname := h.written name ((hmem name).mp hname)
  only q f hf := (h.only q f hf).imp_right fun ⟨name, hname, hq⟩ =>
    ⟨name, (hmem name).mpr hname, hq⟩

end Extracting

/-! ## `_extract` -/

section Extract

variable {sys} {staging : FsPath} {root : List String} {d₀ : Disk}

theorem extractMember_triple (hroot : Rooted sys.limit staging root d₀) (done : List String)
    (m : RelName × Content) :
    Triple (fun s => Extracting root d₀ done s.disk) (extractMember sys staging root m)
      (fun _ s => Extracting root d₀ (done ++ [m.1.raw]) s.disk)
      fun _ s => Confined (below root) d₀ s.disk := by
  have hrooted : ∀ d, Confined (below root) d₀ d → Rooted sys.limit staging root d := fun d hd =>
    hroot.confined hd ((hd.entry fun h => h.2 rfl).trans hroot.dir)
  have hcalm : ∀ done, Calm fun s : Session => Extracting root d₀ done s.disk := fun _ _ _ hs => hs
  refine Triple.get_bind fun s hs => ?_
  have hlocate := (hrooted _ hs.confined).locate (pathParts m.1.raw)
  rw [← join_safe m.1.safe] at hlocate
  rw [hlocate]
  have hinside : ¬(root ++ pathParts m.1.raw ≠ root
      ∧ root ∉ parents (root ++ pathParts m.1.raw)) := by
    rintro ⟨hne, hparents⟩
    exact hparents (mem_parents.mpr ⟨List.prefix_append .., hne.symm⟩)
  change Triple _ (ite _ _ _) _ _
  rw [if_neg hinside]
  suffices h : Triple (fun s' => Extracting root d₀ done s'.disk)
      (do
        mkdirParents sys true ((root ++ pathParts m.1.raw).dropLast.map .into)
        call sys .ok
        call sys (openWb sys ((root ++ pathParts m.1.raw).map .into))
        copyfileobj sys ((root ++ pathParts m.1.raw).map .into) m.2)
      (fun _ s' => Extracting root d₀ (done ++ [m.1.raw]) s'.disk)
      fun _ s' => Confined (below root) d₀ s'.disk from
    h.conseq (fun s' hs' => by rw [hs']; exact hs) (fun _ _ h => h) fun _ _ h => h
  have hopened : Triple (fun s' => Extracting root d₀ done s'.disk) (call sys .ok)
      (fun _ s' => Extracting root d₀ done s'.disk) fun _ s' => Confined (below root) d₀ s'.disk :=
    (Faults.call_keeps (hcalm done) fun s d n hd hok => by
        rw [← Except.ok.inj hok]
        exact hd).conseq (fun _ hs => hs) (fun _ _ hs => hs) fun _ _ hs => hs.confined
  by_cases hempty : pathParts m.1.raw = []
  · -- the name is that of the directory itself, which cannot be opened
    rw [hempty, List.append_nil]
    have hdirs : Triple (fun s' => Extracting root d₀ done s'.disk)
        (mkdirParents sys true (root.dropLast.map .into))
        (fun _ s' => Extracting root d₀ done s'.disk)
        fun _ s' => Confined (below root) d₀ s'.disk := by
      refine (mkdirBack_dir (hcalm done) fun s hs => ⟨root.dropLast, ?_, ?_⟩).conseq
        (fun _ hs => hs) (fun _ _ hs => hs) fun _ _ hs => hs.confined
      · have hdirect := direct_resolve (direct_nil s.disk) (hrooted _ hs.confined).resolves
        exact resolve_into (hdirect.front (List.dropLast_prefix root)) sys.limit
      · exact dir_dropLast (hrooted _ hs.confined).dir
    have hopen : Triple (fun s' => Extracting root d₀ done s'.disk)
        (call sys (openWb sys (root.map .into))) (fun _ _ => False)
        fun _ s' => Confined (below root) d₀ s'.disk := by
      have hno : ∀ (s : Session) (d : Disk) (n : ℕ), Extracting root d₀ done s.disk →
          openWb sys (root.map .into) s.disk = .ok d → False := by
        intro s d n hs hok
        obtain ⟨p, hp, f, hputs, -⟩ := openWb_ok hok
        have hself := (hrooted _ hs.confined).direct.resolves
        obtain rfl := Option.some.inj (hself.symm.trans hp)
        exact hputs.place (hrooted _ hs.confined).dir
      exact (Faults.call_triple (hcalm done) hno).conseq (fun _ hs => hs) (fun _ _ hs => hs)
        fun _ _ hs => hs.1.confined
    refine hdirs.bind fun _ => hopened.bind fun _ => hopen.bind fun _ => ?_
    exact fun _ hs => hs.elim
  · have hdirs : Triple (fun s' => Extracting root d₀ done s'.disk)
        (mkdirParents sys true ((root ++ pathParts m.1.raw).dropLast.map .into))
        (fun _ s' => Extracting root d₀ done s'.disk)
        fun _ s' => Confined (below root) d₀ s'.disk := by
      rw [List.dropLast_append_of_ne_nil hempty, List.map_append]
      exact (mkdirParents_keeps (hcalm done) (fun s hs => (hrooted _ hs.confined).direct)
        (fun s p n hp hs hbelow hnone => hs.put_dir hp hbelow hnone) _ true).conseq
        (fun _ hs => hs) (fun _ _ hs => hs) fun _ _ hs => hs.confined
    have hlocated : ∀ d, Confined (below root) d₀ d →
        d.resolve sys.limit [] ((root ++ pathParts m.1.raw).map .into)
          = some (root ++ pathParts m.1.raw) := by
      intro d hd
      rw [List.map_append]
      exact (hrooted d hd).direct.locate _
    have hopen : Triple (fun s' => Extracting root d₀ done s'.disk)
        (call sys (openWb sys ((root ++ pathParts m.1.raw).map .into)))
        (fun _ s' => Extracting root d₀ (done ++ [m.1.raw]) s'.disk)
        fun _ s' => Confined (below root) d₀ s'.disk := by
      have hput : ∀ (s : Session) (d : Disk) (n : ℕ), Extracting root d₀ done s.disk →
          openWb sys ((root ++ pathParts m.1.raw).map .into) s.disk = .ok d →
          Extracting root d₀ (done ++ [m.1.raw]) d := by
        intro s d n hs hok
        obtain ⟨p, hp, f, hputs, rfl⟩ := openWb_ok hok
        obtain rfl := Option.some.inj ((hlocated _ hs.confined).symm.trans hp)
        exact hs.put_file hroot.linkless hempty hputs f
      exact (Faults.call_triple (hcalm done) hput).conseq (fun _ hs => hs) (fun _ _ hs => hs)
        fun _ _ hs => hs.1.confined
    refine hdirs.bind fun _ => hopened.bind fun _ => hopen.bind fun _ => ?_
    refine (copyfileobj_keeps (hcalm _) fun s d n change hs hok => ?_).conseq (fun _ hs => hs)
      (fun _ _ hs => hs) fun _ _ hs => hs.confined
    rcases update_ok hok with rfl | ⟨p, f, hp, -, hputs, rfl⟩
    · exact hs
    · obtain rfl := Option.some.inj ((hlocated _ hs.confined).symm.trans hp)
      refine (hs.put_file hroot.linkless hempty hputs _).of_mem fun name => ?_
      rw [List.append_assoc, List.mem_append, List.mem_append, List.mem_append, or_self]

theorem extract_triple (hroot : Rooted sys.limit staging root d₀) (archive : Option (List Member)) :
    Triple (fun s => s.disk = d₀) (extract sys staging archive)
      (fun names s => Extracting root d₀ names s.disk ∧ (∀ name ∈ names, safePath name = true)
        ∧ ∃ listing, archive = some listing ∧ Listed listing names)
      fun _ s => Confined (below root) d₀ s.disk := by
  have hsame : ∀ s : Session, s.disk = d₀ → Confined (below root) d₀ s.disk := fun s hs => by
    rw [hs]
    exact Confined.refl _ _
  cases archive with
  | none => exact Triple.throw hsame
  | some listing =>
      rw [extract]
      split
      · exact Triple.throw hsame
      · rename_i members hmembers
        refine Triple.get_bind fun s hs => ?_
        rw [hs, hroot.resolves]
        have hloop := @Triple.forM _ _ _ (fun _ s => Confined (below root) d₀ s.disk)
          (extractMember sys staging root)
          (fun done s => Extracting root d₀ (done.map fun m => m.1.raw) s.disk) members
          fun done m rest _ => by
            simp only [List.map_append]
            exact extractMember_triple hroot _ m
        refine Triple.bind (hloop.conseq (fun s' hs' => ?_) (fun _ _ h => h) fun _ _ h => h)
          fun _ => Triple.pure fun s' hs' => ⟨hs', ?_, listing, rfl, safeMembers_ok hmembers⟩
        · rw [hs', hs]
          exact Extracting.start root d₀
        · intro name hname
          obtain ⟨m, -, rfl⟩ := List.mem_map.mp hname
          exact m.1.safe

end Extract

end WheelDisk

end Zmux
