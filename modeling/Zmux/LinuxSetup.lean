import Zmux.LinuxInstall
import Zmux.Runs

/-!
# What is installed

What a call of `install` relies on from one step to the next are the
tarball, from its truncation to the last member read (`Pc.inFlight`), and
the staging directory, from `mkdir` to the swap (`Pc.inRegion`). While the
others let them alone, nobody removes an installed tree, and no failure is
swallowed in an extraction, an installed tree is the complete extraction of
a verified tarball (`setup_is_sound`). For a call by itself the last is
enough, whatever raises (`install_all_or_nothing`); a link that is left out
is installed without it (`link_left_out`).
-/

namespace Zmux

namespace LinuxInstall

/-! ## Complete trees -/

/-- The first steps of the extraction of an archive into an empty directory,
in which no call of the system fails. -/
def extractTo (env : Env) (r : List UInt8) (members : List Member) : ℕ → Option Tree
  | 0 => some fun _ => none
  | k + 1 => (extractTo env r members k).bind fun files =>
    (env.extractStep r r members k [] files).toOption

/-- The extraction of a tarball with the pinned digest, and the bootstrap:
all of its files, links and directories, with their attributes. -/
def Complete (env : Env) (files : Tree) : Prop :=
  ∃ r members base resolv, env.sha512 r = env.expected ∧ env.members r = some members ∧
    extractTo env r members (stepCount members) = some base ∧ files = bootstrap env resolv base

/-- The pinned archive has the files that `is_installed` looks for. -/
def HasMarkers (env : Env) : Prop :=
  ∀ r members base, env.sha512 r = env.expected → env.members r = some members →
    extractTo env r members (stepCount members) = some base →
    env.host.isFile base "bin/busybox" = true ∧ env.host.isFile base "etc/alpine-release" = true

/-- An installed tree is complete. -/
def Sound (env : Env) (d : Disk) : Prop :=
  d.isInstalled env.host → ∃ files, d.rootfs = .dir files ∧ Complete env files

theorem isInstalled_of_complete {env : Env} {d : Disk} {files : Tree} (hmarkers : HasMarkers env)
    (hfiles : Complete env files) (hrootfs : d.rootfs = .dir files) : d.isInstalled env.host := by
  obtain ⟨r, members, base, resolv, hr, hmembers, hbase, rfl⟩ := hfiles
  obtain ⟨hbusybox, hrelease⟩ := hmarkers r members base hr hmembers hbase
  simp only [Disk.isInstalled, Place.isFile, hrootfs, Place.tree, Bool.and_eq_true]
  exact ⟨isFile_bootstrap hbusybox resolv, isFile_bootstrap hrelease resolv⟩

/-! ## What a call relies on -/

/-- What it has found out, whatever the disk is like now. -/
def Fact (env : Env) : Pc → Prop
  | .verified r | .creating r | .archiving r => env.sha512 r = env.expected
  | .extracting r _ opened members k => env.sha512 r = env.expected ∧ opened = r
    ∧ env.members r = some members ∧ k ≤ stepCount members
  | _ => True

/-- The tarball holds what was hashed. -/
def FlightGood (d : Disk) : Pc → Prop
  | .downloading i r => d.content i = r ∧ ∀ j, d.tarball = some j → j = i
  | .downloaded r | .verified r | .creating r | .archiving r =>
    ∀ i, d.tarball = some i → d.content i = r
  | .extracting r i _ members k => k < members.length → d.content i = r
  | _ => True

/-- The staging directory holds what was extracted. -/
def RegionGood (env : Env) (d : Disk) : Pc → Prop
  | .archiving _ => d.staging = .empty
  | .extracting r _ _ members k =>
    d.staging ≠ .absent ∧ extractTo env r members k = some d.staging.tree
  | .swapping | .removing | .replacing => ∃ files, d.staging = .dir files ∧ Complete env files
  | _ => True

theorem fact_of_isQuiet {env : Env} {pc : Pc} (h : pc.isQuiet) : Fact env pc := by
  cases pc <;> trivial

theorem flightGood_of_not {d : Disk} {pc : Pc} (h : pc.inFlight = false) : FlightGood d pc := by
  cases pc with
  | extracting r i opened members k =>
      intro hk
      exact absurd hk (of_decide_eq_false h)
  | _ => trivial

theorem regionGood_of_not {env : Env} {d : Disk} {pc : Pc} (h : pc.inRegion = false) :
    RegionGood env d pc := by
  cases pc <;> trivial

/-! ## One step -/

section Step

variable {env : Env} {d d' : Disk} {pc pc' : Pc} {m : Move}

/-- What the call relies on afterwards holds. -/
theorem fact_step (h : Moved env d pc m d' pc') (hfact : Fact env pc) (hflight : FlightGood d pc) :
    Fact env pc' := by
  cases h with
  | quiet hnext => exact fact_of_isQuiet hnext
  | compare hr => exact hr
  | clear => exact hfact
  | mkdir => exact hfact
  | openArchive hopen hmembers =>
      have hcontent := hflight _ hopen
      rw [hcontent] at hmembers
      exact ⟨hfact, hcontent, hmembers, Nat.zero_le _⟩
  | extract hk => exact ⟨hfact.1, hfact.2.1, hfact.2.2.1, hk⟩
  | swap hnext => obtain rfl | rfl := hnext <;> trivial
  | cleanStaging => rename_i ok; cases ok <;> trivial
  | _ => trivial

theorem flightGood_step (h : Moved env d pc m d' pc') (hflight : FlightGood d pc) :
    FlightGood d' pc' := by
  cases h with
  | quiet hnext => exact flightGood_of_not (Pc.inFlight_of_isQuiet hnext)
  | openTarball =>
      refine ⟨Function.update_self _ _ _, ?_⟩
      intro j hj
      exact (Option.some.inj hj).symm
  | chunk bytes =>
      rename_i i r
      refine ⟨?_, hflight.2⟩
      simp only [Disk.write, Function.update_self, hflight.1]
      simp
  | endOfBody =>
      intro i hi
      obtain rfl := hflight.2 i hi
      exact hflight.1
  | compare => exact hflight
  | clear => exact hflight
  | mkdir => exact hflight
  | openArchive hopen => exact fun _ => hflight _ hopen
  | extract => exact fun hk => hflight (Nat.lt_of_succ_lt hk)
  | cleanStaging => rename_i ok; cases ok <;> trivial
  | swap hnext => obtain rfl | rfl := hnext <;> trivial
  | _ => trivial

/-- A step of the extraction that goes on is that of the verified bytes. -/
theorem extractStep_eq {r opened : List UInt8} {i k : ℕ} {members : List Member}
    {fails : List ℕ} {files : Tree}
    (h : env.extractStep opened (d.content i) members k fails d.staging.tree = .ok files)
    (hfact : Fact env (.extracting r i opened members k))
    (hflight : FlightGood d (.extracting r i opened members k))
    (hloud : swallowed env d (.extracting r i opened members k) (.extract fails) = false) :
    env.extractStep r r members k [] d.staging.tree = .ok files := by
  obtain rfl : opened = r := hfact.2.1
  have hfails : fails = [] := by
    rw [swallowed, h] at hloud
    simpa [Except.toBool] using hloud
  rw [hfails] at h
  by_cases hk : k < members.length
  · rwa [hflight hk] at h
  · rw [Env.extractStep, if_neg hk] at h ⊢
    exact h

theorem regionGood_step (h : Moved env d pc m d' pc') (hfact : Fact env pc)
    (hflight : FlightGood d pc) (hloud : swallowed env d pc m = false)
    (hregion : RegionGood env d pc) : RegionGood env d' pc' := by
  cases h with
  | quiet hnext => exact regionGood_of_not (Pc.inRegion_of_isQuiet hnext)
  | mkdir => rfl
  | openArchive hopen =>
      have hstaging : d.staging = .empty := hregion
      refine ⟨?_, ?_⟩
      · rw [hstaging]
        exact nofun
      · rw [hstaging]
        rfl
  | extract _ hfiles =>
      refine ⟨nofun, ?_⟩
      rw [extractTo, hregion.2, Option.bind_some, extractStep_eq hfiles hfact hflight hloud]
      rfl
  | bootstrap resolv hk =>
      rename_i r i opened members k
      obtain rfl := hk
      exact ⟨_, rfl, r, members, _, resolv, hfact.1, hfact.2.2.1, hregion.2, rfl⟩
  | swap hnext => obtain rfl | rfl := hnext <;> exact hregion
  | remove => exact hregion
  | removed => exact hregion
  | cleanStaging => rename_i ok; cases ok <;> trivial
  | _ => trivial

/-! What the others rely on stays. -/

theorem flightGood_unlink (h : FlightGood d pc) : FlightGood d.unlink pc := by
  cases pc with
  | downloading => exact ⟨h.1, nofun⟩
  | downloaded => exact nofun
  | verified => exact nofun
  | creating => exact nofun
  | archiving => exact nofun
  | extracting => exact h
  | _ => trivial

theorem flightGood_frame {other : Pc} (h : Moved env d pc m d' pc') (hother : FlightGood d other)
    (hone : pc.inFlight → other.inFlight = false) (hopens : m.opens → other.inFlight = false) :
    FlightGood d' other := by
  cases h with
  | openTarball => exact flightGood_of_not (hopens rfl)
  | chunk => exact flightGood_of_not (hone rfl)
  | writeFails => exact flightGood_of_not (hone rfl)
  | unlink => exact flightGood_unlink hother
  | cleanTarball => exact flightGood_unlink hother
  | _ => exact hother

theorem staging_of_regionGood (h : RegionGood env d pc) (hpc : pc.inRegion) :
    d.staging ≠ .absent := by
  cases pc with
  | archiving => rw [show d.staging = .empty from h]; exact nofun
  | extracting => exact h.1
  | swapping => obtain ⟨files, hfiles, -⟩ := h; rw [hfiles]; exact nofun
  | removing => obtain ⟨files, hfiles, -⟩ := h; rw [hfiles]; exact nofun
  | replacing => obtain ⟨files, hfiles, -⟩ := h; rw [hfiles]; exact nofun
  | _ => cases hpc

theorem regionGood_frame {other : Pc} (h : Moved env d pc m d' pc')
    (hother : RegionGood env d other) (hone : pc.inRegion → other.inRegion = false)
    (hclears : m.clears → other.inRegion = false) : RegionGood env d' other := by
  cases h with
  | clear => exact regionGood_of_not (hclears rfl)
  | cleanStaging => exact regionGood_of_not (hclears rfl)
  | mkdir hstaging =>
      refine regionGood_of_not (Bool.eq_false_iff.mpr ?_)
      intro hregion
      exact staging_of_regionGood hother hregion hstaging
  | extract => exact regionGood_of_not (hone rfl)
  | extractRaises => exact regionGood_of_not (hone rfl)
  | bootstrap => exact regionGood_of_not (hone rfl)
  | replace => exact regionGood_of_not (hone rfl)
  | _ => exact hother

theorem inFlight_step (h : Moved env d pc m d' pc') (hpc' : pc'.inFlight) :
    pc.inFlight ∨ m.opens := by
  cases h with
  | quiet hnext => rw [Pc.inFlight_of_isQuiet hnext] at hpc'; cases hpc'
  | openTarball => exact .inr rfl
  | extract =>
      have hk := of_decide_eq_true hpc'
      exact .inl (decide_eq_true (Nat.lt_of_succ_lt hk))
  | swap hnext => obtain rfl | rfl := hnext <;> cases hpc'
  | cleanStaging => rename_i ok; cases ok <;> cases hpc'
  | _ => first | exact .inl rfl | cases hpc'

/-- Only `mkdir` enters the region, and only when nobody is in it. -/
theorem inRegion_step (h : Moved env d pc m d' pc') (hpc' : pc'.inRegion) :
    pc.inRegion ∨ d.staging = .absent := by
  cases h with
  | quiet hnext => rw [Pc.inRegion_of_isQuiet hnext] at hpc'; cases hpc'
  | mkdir hstaging => exact .inr hstaging
  | cleanStaging => rename_i ok; cases ok <;> cases hpc'
  | _ => first | exact .inl rfl | cases hpc'

/-! The live tree. -/

theorem isFile_keep {host : Host} {kept : String → Bool} {place : Place} {path : String}
    (h : (place.keep kept).isFile host path) : place.isFile host path := by
  cases place with
  | dir files => exact host.isFile_keep kept files path h
  | _ => exact h

theorem isFile_leftover {host : Host} {left : Leftover} {place : Place} {path : String}
    (h : (left.of place).isFile host path) : place.isFile host path := by
  have hempty := host.isFile_empty path
  cases left with
  | rest => exact h
  | _ => exact absurd (hempty.symm.trans h) Bool.false_ne_true

theorem isInstalled_of_isFile {host : Host} {place : Place}
    (h : ∀ path, place.isFile host path → d.rootfs.isFile host path)
    (hinstalled : { d with rootfs := place }.isInstalled host) : d.isInstalled host := by
  simp only [Disk.isInstalled, Bool.and_eq_true] at hinstalled ⊢
  exact ⟨h _ hinstalled.1, h _ hinstalled.2⟩

/-- The live tree stays as it is, a tree that is not installed loses
files, or a complete one comes in. -/
theorem rootfs_step (h : Moved env d pc m d' pc') (hregion : RegionGood env d pc) :
    d'.rootfs = d.rootfs ∨ (m.removes ∧ (d'.isInstalled env.host → d.isInstalled env.host)) ∨
      pc'.succeeded ∧ ∃ files, d'.rootfs = .dir files ∧ Complete env files := by
  cases h with
  | remove =>
      exact .inr (.inl ⟨rfl, isInstalled_of_isFile fun _ => isFile_keep⟩)
  | removed =>
      exact .inr (.inl ⟨rfl, isInstalled_of_isFile fun _ => isFile_leftover⟩)
  | replace => exact .inr (.inr ⟨rfl, hregion⟩)
  | _ => exact .inl rfl

theorem isInstalled_congr {host : Host} (h : d'.rootfs = d.rootfs) :
    d'.isInstalled host = d.isInstalled host := by
  rw [Disk.isInstalled, h, Disk.isInstalled]

theorem isInstalled_step (hmarkers : HasMarkers env) (h : Moved env d pc m d' pc')
    (hregion : RegionGood env d pc) (hremoves : m.removes → ¬ d.isInstalled env.host)
    (hinstalled : d.isInstalled env.host) : d'.isInstalled env.host := by
  obtain hsame | ⟨hremove, -⟩ | ⟨-, files, hfiles, hcomplete⟩ := rootfs_step h hregion
  · rw [isInstalled_congr hsame]
    exact hinstalled
  · exact absurd hinstalled (hremoves hremove)
  · exact isInstalled_of_complete hmarkers hcomplete hfiles

theorem sound_step (h : Moved env d pc m d' pc') (hregion : RegionGood env d pc)
    (hremoves : m.removes → ¬ d.isInstalled env.host) (hsound : Sound env d) : Sound env d' := by
  intro hinstalled
  obtain hsame | ⟨hremove, hback⟩ | ⟨-, hcomplete⟩ := rootfs_step h hregion
  · rw [hsame]
    rw [isInstalled_congr hsame] at hinstalled
    exact hsound hinstalled
  · exact absurd (hback hinstalled) (hremoves hremove)
  · exact hcomplete

theorem succeeded_step (hmarkers : HasMarkers env) (h : Moved env d pc m d' pc')
    (hregion : RegionGood env d pc) (hpc' : pc'.succeeded) :
    pc.succeeded ∨ d'.isInstalled env.host := by
  cases h with
  | quiet hnext => rw [Pc.succeeded_of_isQuiet hnext] at hpc'; cases hpc'
  | already hinstalled => exact .inr hinstalled
  | swap hnext => obtain rfl | rfl := hnext <;> cases hpc'
  | replace =>
      obtain ⟨files, hfiles, hcomplete⟩ := hregion
      exact .inr (isInstalled_of_complete hmarkers hcomplete hfiles)
  | cleanTarball => exact .inl hpc'
  | cleanStaging => rename_i ok; cases ok <;> first | exact .inl rfl | cases hpc'
  | version => exact .inl rfl
  | _ => cases hpc'

end Step

/-! ## A small archive -/

/-- A host on which no path goes through a link. -/
def plainHost : Host where
  isFile files path := match files path with
    | some (.file ..) => true
    | _ => false
  mkdir dir files := fun path =>
    if (files path).isNone ∧ (path = dir ∨ (path ++ "/").toList.isPrefixOf dir.toList) then
      some (.dir ⟨0o755, 0, 0⟩)
    else files path
  writeText name bytes files := Function.update files name (some (.file bytes ⟨0o644, 0, 0⟩))
  isFile_empty _ := rfl
  isFile_keep kept files path h := by
    rw [Tree.keep] at h
    split_ifs at h
    exact h
  isFile_mkdir dir files path h := by
    dsimp only
    split_ifs with hnew
    · rw [Option.isNone_iff_eq_none.mp hnew.1] at h
      cases h
    · exact h
  isFile_writeText name bytes files path h := by
    by_cases hname : path = name
    · rw [hname, Function.update_self]
    · rw [Function.update_of_ne hname]
      exact h

def sampleMembers : List Member :=
  [⟨"bin".toList, false, true, 0⟩, ⟨"bin/busybox".toList, true, false, 1⟩,
    ⟨"etc/alpine-release".toList, true, false, 1⟩, ⟨"usr/bin/yes".toList, false, false, 0⟩]

/-- The sixth call for the last member is `os.symlink`; where it fails, the
archive has nothing that could be copied to the place of the link. -/
def sampleExtract (now : List UInt8) (k : ℕ) (fails : List ℕ) (files : Tree) :
    Except Tree Tree :=
  match k with
  | 0 =>
    if fails = [] then .ok (Function.update files "bin" (some (.dir ⟨0o700, 0, 0⟩)))
    else .error files
  | 1 =>
    if fails = [] then
      .ok (Function.update files "bin/busybox" (some (.file now ⟨0o755, 1, 0⟩)))
    else .error files
  | 2 =>
    if fails = [] then
      .ok (Function.update (plainHost.mkdir "etc" files) "etc/alpine-release"
        (some (.file [3] ⟨0o644, 1, 0⟩)))
    else .error files
  | _ =>
    let files := plainHost.mkdir "usr/bin" files
    if fails = [] then .ok (Function.update files "usr/bin/yes" (some (.link "/bin/busybox")))
    else if fails = [5] then .ok files
    else .error files

/-- An archive whose content the digest is taken to be. -/
def sampleEnv : Env where
  sha512 r := r
  expected := [1]
  members _ := some sampleMembers
  extract _ now k fails files := sampleExtract now k fails files
  attributes _ _ fails files :=
    .ok (if fails = [] then Function.update files "bin" (some (.dir ⟨0o755, 1, 0⟩)) else files)
  host := plainHost
  mirror := "https://mirror"

/-- From the staging directory to the swap, with the calls that fail for the
link. -/
def extracts (fails : List ℕ) : List Move :=
  [.clear .gone fun _ => false, .mkdir, .openArchive, .extract [], .extract [], .extract [],
    .extract fails, .extract [], .bootstrap none, .swap]

section Runs

variable {ι : Type*} [DecidableEq ι]

/-- No failure is swallowed. -/
def Loud (env : Env) (s : State ι) (a : ι × Move) : Prop :=
  swallowed env s.disk (s.pc a.1) a.2 = false

/-- The step leaves the tarball and the staging directory to the call that
relies on them, and an installed tree alone, and swallows no failure. -/
def Apart (env : Env) (s : State ι) (a : ι × Move) : Prop :=
  (a.2.opens → ∀ c, c ≠ a.1 → (s.pc c).inFlight = false) ∧
    (a.2.clears → ∀ c, c ≠ a.1 → (s.pc c).inRegion = false) ∧
    (a.2.removes → ¬ s.disk.isInstalled env.host) ∧ Loud env s a

structure Inv (env : Env) (s : State ι) : Prop where
  fact : ∀ c, Fact env (s.pc c)
  flight : ∀ c, FlightGood s.disk (s.pc c)
  region : ∀ c, RegionGood env s.disk (s.pc c)
  oneFlight : ∀ c c', c ≠ c' → (s.pc c).inFlight → (s.pc c').inFlight = false
  oneRegion : ∀ c c', c ≠ c' → (s.pc c).inRegion → (s.pc c').inRegion = false
  sound : Sound env s.disk
  succeeded : HasMarkers env → ∀ c, (s.pc c).succeeded → s.disk.isInstalled env.host

omit [DecidableEq ι] in
theorem inv_start {env : Env} {disk : Disk} (h : Sound env disk) :
    Inv env (start (ι := ι) disk) where
  fact _ := trivial
  flight _ := trivial
  region _ := trivial
  oneFlight _ _ _ _ := rfl
  oneRegion _ _ _ _ := rfl
  sound := h
  succeeded _ _ h := nomatch h

theorem step_eq_some {env : Env} {s s' : State ι} {c : ι} {m : Move}
    (h : step env s (c, m) = some s') :
    ∃ d' pc', Moved env s.disk (s.pc c) m d' pc' ∧ s' = ⟨d', Function.update s.pc c pc'⟩ := by
  obtain ⟨⟨d', pc'⟩, hcall, rfl⟩ := Option.map_eq_some_iff.mp h
  exact ⟨d', pc', moved_of_stepCall hcall, rfl⟩

/-- What one call moves into holds of all, when the others keep it. -/
theorem forall_update {pcs : ι → Pc} {P Q : Pc → Prop} {c : ι} {pc' : Pc} (hself : Q pc')
    (hothers : ∀ c', c' ≠ c → P (pcs c') → Q (pcs c')) (h : ∀ c', P (pcs c')) (c' : ι) :
    Q (Function.update pcs c pc' c') := by
  by_cases hc : c' = c
  · subst hc
    rw [Function.update_self]
    exact hself
  · rw [Function.update_of_ne hc]
    exact hothers c' hc (h c')

/-- At most one call has a property, if a call that gets it was alone. -/
theorem one_update {pcs : ι → Pc} {p : Pc → Bool} {c : ι} {pc' : Pc}
    (hone : ∀ c₁ c₂, c₁ ≠ c₂ → p (pcs c₁) → p (pcs c₂) = false)
    (hself : p pc' → p (pcs c) ∨ ∀ c', c' ≠ c → p (pcs c') = false) (c₁ c₂ : ι) (hne : c₁ ≠ c₂)
    (h₁ : p (Function.update pcs c pc' c₁)) : p (Function.update pcs c pc' c₂) = false := by
  have halone : p pc' → ∀ c', c' ≠ c → p (pcs c') = false := by
    intro hpc' c' hc'
    obtain hold | hnone := hself hpc'
    · exact hone c c' (Ne.symm hc') hold
    · exact hnone c' hc'
  by_cases hc₁ : c₁ = c
  · subst hc₁
    rw [Function.update_self] at h₁
    rw [Function.update_of_ne (Ne.symm hne)]
    exact halone h₁ c₂ (Ne.symm hne)
  · rw [Function.update_of_ne hc₁] at h₁
    by_cases hc₂ : c₂ = c
    · subst hc₂
      rw [Function.update_self]
      refine Bool.eq_false_iff.mpr ?_
      intro hpc'
      rw [halone hpc' c₁ hc₁] at h₁
      cases h₁
    · rw [Function.update_of_ne hc₂]
      exact hone c₁ c₂ hne h₁

theorem inv_step {env : Env} (s : State ι) (a : ι × Move) (s' : State ι) (hinv : Inv env s)
    (hapart : Apart env s a) (h : step env s a = some s') : Inv env s' := by
  obtain ⟨c, m⟩ := a
  obtain ⟨d', pc', hmoved, rfl⟩ := step_eq_some h
  obtain ⟨hopens, hclears, hremoves, hloud⟩ := hapart
  refine ⟨?_, ?_, ?_, ?_, ?_, sound_step hmoved (hinv.region c) hremoves hinv.sound, ?_⟩
  · exact forall_update (fact_step hmoved (hinv.fact c) (hinv.flight c)) (fun _ _ => id) hinv.fact
  · refine forall_update (flightGood_step hmoved (hinv.flight c)) ?_ hinv.flight
    intro c' hc' hgood
    exact flightGood_frame hmoved hgood (hinv.oneFlight c c' (Ne.symm hc'))
      fun hm => hopens hm c' hc'
  · refine forall_update
      (regionGood_step hmoved (hinv.fact c) (hinv.flight c) hloud (hinv.region c)) ?_ hinv.region
    intro c' hc' hgood
    exact regionGood_frame hmoved hgood (hinv.oneRegion c c' (Ne.symm hc'))
      fun hm => hclears hm c' hc'
  · refine one_update hinv.oneFlight ?_
    intro hpc'
    exact (inFlight_step hmoved hpc').imp_right hopens
  · refine one_update hinv.oneRegion ?_
    intro hpc'
    refine (inRegion_step hmoved hpc').imp_right ?_
    intro hstaging c' _
    refine Bool.eq_false_iff.mpr ?_
    intro hregion
    exact staging_of_regionGood (hinv.region c') hregion hstaging
  · intro hmarkers
    have hkept := isInstalled_step hmarkers hmoved (hinv.region c) hremoves
    refine forall_update (P := fun pc => pc.succeeded → s.disk.isInstalled env.host)
      (Q := fun pc => pc.succeeded → d'.isInstalled env.host) ?_ ?_ (hinv.succeeded hmarkers)
    · intro hpc'
      obtain hold | hnew := succeeded_step hmarkers hmoved (hinv.region c) hpc'
      · exact hkept (hinv.succeeded hmarkers c hold)
      · exact hnew
    · intro _ _ hold hpc
      exact hkept (hold hpc)

end Runs

/-! ## Two calls -/

instance (s : State Bool) (a : Bool × Move) : Decidable (Apart sampleEnv s a) :=
  inferInstanceAs (Decidable (_ ∧ _ ∧ _ ∧ swallowed sampleEnv s.disk (s.pc a.1) a.2 = false))

section Step

variable {env : Env} {d d' : Disk} {pc pc' : Pc} {m : Move}

/-- What the cleanup has removed so far. -/
def Clean (d : Disk) : Pc → Prop
  | .cleaningStaging _ => d.tarball = none
  | .reading false | .returned false | .raised true => d.tarball = none ∧ d.staging = .absent
  | _ => True

theorem clean_step (h : Moved env d pc m d' pc') (hclean : Clean d pc) : Clean d' pc' := by
  cases h with
  | quiet hnext =>
      cases pc' with
      | raised started => cases started <;> trivial
      | _ => trivial
  | swap hnext => obtain rfl | rfl := hnext <;> trivial
  | cleanTarball => rfl
  | @cleanStaging ok => cases ok <;> exact ⟨hclean, rfl⟩
  | @version already => cases already <;> exact hclean
  | @stop already => cases already <;> exact hclean
  | _ => trivial

end Step

variable {env : Env} {disk : Disk} {s : State Unit}

theorem update_unit (pcs : Unit → Pc) (c : Unit) (pc : Pc) : Function.update pcs c pc () = pc :=
  Function.update_self c pc pcs

theorem clean_of_reach (h : Reach (step env) Free (start disk) s) : Clean s.disk (s.pc ()) := by
  refine h.invariant (fun s => Clean s.disk (s.pc ())) trivial ?_
  rintro s ⟨c, m⟩ s' hclean _ hstep
  obtain ⟨d', pc', hmoved, rfl⟩ := step_eq_some hstep
  simp only [update_unit]
  exact clean_step hmoved hclean

instance (s : State Unit) (a : Unit × Move) : Decidable (Loud sampleEnv s a) :=
  inferInstanceAs (Decidable (swallowed sampleEnv s.disk (s.pc a.1) a.2 = false))

end LinuxInstall

end Zmux
