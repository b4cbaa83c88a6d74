import Zmux.ZpipCommit

/-!
# Atomicity of install

A failed `install` whose requirements were met beforehand restores the
package directory and the database for every fault pattern, apart from
the two losses of `ZpipCommit`. The database half is unconditional: the
save is the last step that can raise, and it replaces the file whole.
-/

namespace Zmux

/-! ## Requirements that are met -/

/-- The database has a package that satisfies the requirement. -/
def Met (packaging : Packaging) (db : Db) (r : Requirement) : Prop :=
  ∃ dependency record, canonicalize r.name = some dependency
    ∧ db.lookup dependency = some record ∧ satisfies packaging record r = true

theorem installDependencies_met {packaging : Packaging}
    (call : Name → Option String → World → Option (Result × World)) {before : Db} :
    ∀ {rs : List Requirement} (new : List Name) (w : World),
      (∀ r ∈ rs, Met packaging before r) →
        installDependencies packaging call before rs new w = some (none, new, w)
  | [], _, _, _ => rfl
  | r :: rs, new, w, h => by
      obtain ⟨dependency, record, hname, hlookup, hsat⟩ := h r (List.mem_cons_self ..)
      simp only [installDependencies, hname, hlookup, hsat, if_true]
      exact installDependencies_met call new w fun r' hr' => h r' (List.mem_cons_of_mem _ hr')

/-! ## What staging provides -/

theorem extractLoop_mono {p : Path} : ∀ {members : List (RelName × Content)}
    {staging staging' : Tree}, extractLoop members staging = .ok staging' →
      (staging p).isSome = true → (staging' p).isSome = true
  | [], _, _, h, hp => by
      obtain rfl := Except.ok.inj h
      exact hp
  | (f, content) :: rest, staging, staging', h, hp => by
      rw [extractLoop] at h
      split at h
      · cases h
      · refine extractLoop_mono h ?_
        by_cases hpf : p = f.path
        · rw [hpf, Function.update_self]; rfl
        · rwa [Function.update_of_ne hpf]

theorem extractLoop_isSome : ∀ {members : List (RelName × Content)} {staging staging' : Tree},
    extractLoop members staging = .ok staging' →
      ∀ m ∈ members, (staging' m.1.path).isSome = true
  | [], _, _, _, _, hm => (List.not_mem_nil hm).elim
  | (f, content) :: rest, staging, staging', h, m, hm => by
      rw [extractLoop] at h
      split at h
      · cases h
      · rcases List.mem_cons.mp hm with rfl | hm
        · exact extractLoop_mono h (by rw [Function.update_self]; rfl)
        · exact extractLoop_isSome h m hm

theorem extract_members {env : Env} {t : Txn} {archive : Option (List Member)}
    {files : List RelName} {staging : Tree}
    (h : extract env t archive = .ok (files, staging)) :
    ∃ listing members, archive = some listing ∧ safeMembers listing = .ok members
      ∧ files = members.map Prod.fst ∧ extractLoop members (fun _ => none) = .ok staging := by
  simp only [extract] at h
  split at h
  · cases h
  · rename_i listing
    split at h
    · cases h
    · rename_i members hmembers
      split at h
      · cases h
      · split at h
        · cases h
        · rename_i hloop
          obtain ⟨rfl, rfl⟩ := Prod.mk.injEq .. |>.mp (Except.ok.inj h)
          exact ⟨listing, members, rfl, hmembers, rfl, hloop⟩

/-- A download that succeeds has the answer for the URL, with the expected digest. -/
theorem download_ok {env : Env} {t : Txn} {url expected : String} {response : Response}
    (h : download env t url expected = .ok response) :
    env.fetch t url = some response ∧ response.sha256 = expected := by
  unfold download at h
  split at h
  · cases h
  · split at h
    · cases h
    · split at h
      · cases h
      · rename_i response' hfetch
        repeat (split at h; · cases h)
        rename_i hdigest
        obtain rfl := Except.ok.inj h
        exact ⟨hfetch, not_not.mp hdigest⟩

/-- What staging that succeeds has gone through. -/
theorem stage_ok {env : Env} {t : Txn} {package : Name} {manifest : Manifest} {db : Db}
    {staged : Staged} (h : stage env t package manifest db = .ok staged) :
    ∃ response, download env t manifest.url manifest.sha256 = .ok response
      ∧ extract env t response.archive = .ok (staged.files, staged.staging)
      ∧ collisions db package staged.files = [] ∧ staged.sha256 = response.sha256 := by
  unfold stage at h
  split at h
  · cases h
  · rename_i response hdownload
    split at h
    · cases h
    · split at h
      · cases h
      · rename_i files staging hextract
        split at h
        · cases h
        · split at h
          · cases h
          · rename_i hnone
            split at h
            · cases h
            · obtain rfl := Except.ok.inj h
              exact ⟨response, hdownload, hextract, hnone, rfl⟩

theorem stage_allStaged {env : Env} {t : Txn} {package : Name} {manifest : Manifest} {db : Db}
    {staged : Staged} (h : stage env t package manifest db = .ok staged) :
    AllStaged staged.staging staged.files := by
  obtain ⟨response, -, hextract, -, -⟩ := stage_ok h
  obtain ⟨listing, members, -, -, hfiles, hloop⟩ := extract_members hextract
  rw [hfiles]
  intro f hf
  obtain ⟨m, hm, rfl⟩ := List.mem_map.mp hf
  exact extractLoop_isSome hloop m hm

/-! ## Atomicity -/

/-- If the commit of this call is reached, its undo loses nothing. -/
def Recoverable (env : Env) (channel : String) (stack : List Name) (name : String)
    (version : Option String) (w : World) : Prop :=
  ∀ package manifest staged, canonicalize name = some package → package ∉ stack →
    resolve env w.txns package version channel = .ok manifest →
    stage env w.txns package manifest w.db = .ok staged →
      ¬BackupLost (env.fault w.txns) (env.copied w.txns) w.user staged.staging staged.files
        ∧ ¬ObsoleteLost (env.fault w.txns) w.user staged.staging staged.files
          (obsoleteFiles env w.txns (previousFiles w.db package) staged.files)

/-- A wheel that pulled in no dependencies is installed, or the call fails
and the database is untouched; the tree is restored when the commit is. -/
theorem installWheel_restores_iff {env : Env} {channel : String} {stack : List Name} {t : Txn}
    {package : Name} {manifest : Manifest} {w : World} :
    ((installWheel env channel stack t package manifest [] w).1.ok = false →
        (installWheel env channel stack t package manifest [] w).2.user = w.user
          ∧ (installWheel env channel stack t package manifest [] w).2.db = w.db) ↔
      ∀ staged, stage env t package manifest w.db = .ok staged →
        ¬BackupLost (env.fault t) (env.copied t) w.user staged.staging staged.files
          ∧ ¬ObsoleteLost (env.fault t) w.user staged.staging staged.files
            (obsoleteFiles env t (previousFiles w.db package) staged.files) := by
  cases hstage : stage env t package manifest w.db with
  | error e => simp [installWheel, hstage, uninstallAll]
  | ok staged =>
      have hiff := commitTree_restores_iff env t package w.db w.user (stage_allStaged hstage)
      simp only [Except.ok.injEq, forall_eq', ← hiff]
      rcases hcommit : commitTree env t package w.db staged w.user with ⟨user, _ | e⟩
      · simp [installWheel, hstage, hcommit, Result.ok]
      · simp [installWheel, hstage, hcommit, Result.ok, uninstallAll]

/-- **Atomicity of install.** With the requirements of the manifest met, a
failed call leaves every file and the database as they were if and only
if the call is recoverable. -/
theorem install_atomic_iff (env : Env) (channel : String) (fuel : Nat) (stack : List Name)
    (name : String) (version : Option String) (w : World)
    (hmet : ∀ package manifest, canonicalize name = some package →
      resolve env w.txns package version channel = .ok manifest →
      ∀ r ∈ manifestRequirements env.packaging manifest, Met env.packaging w.db r) :
    ∃ result w', install env channel (fuel + 1) stack name version w = some (result, w')
      ∧ ((result.ok = false → w'.user = w.user ∧ w'.db = w.db) ↔
        Recoverable env channel stack name version w) := by
  cases hname : canonicalize name with
  | none =>
      refine ⟨_, w, by simp only [install, hname]; rfl, ?_⟩
      simp [Recoverable, hname]
  | some package =>
      by_cases hstack : package ∈ stack
      · refine ⟨_, w, by simp only [install, hname, hstack, if_true]; rfl,
          iff_of_true (fun _ => ⟨rfl, rfl⟩) ?_⟩
        intro package' manifest staged hname' hstack'
        obtain rfl := Option.some.inj (hname.symm.trans hname')
        exact absurd hstack hstack'
      · cases hres : resolve env w.txns package version channel with
        | error e =>
            refine ⟨.failed ⟨package, e, true⟩, { w with txns := w.txns + 1 },
              by simp only [install, hname, hstack, if_false, hres],
              iff_of_true (fun _ => ⟨rfl, rfl⟩) ?_⟩
            intro package' manifest staged hname' _ hres'
            obtain rfl := Option.some.inj (hname.symm.trans hname')
            cases hres.symm.trans hres'
        | ok manifest =>
            have hdeps := installDependencies_met
              (install env channel fuel (stack ++ [package])) []
              { w with txns := w.txns + 1 } (hmet package manifest hname hres)
            have hrun : install env channel (fuel + 1) stack name version w
                = some (installWheel env channel stack w.txns package manifest []
                  { w with txns := w.txns + 1 }) := by
              simp only [install, hname, hstack, if_false, hres, hdeps]
            refine ⟨_, _, hrun, installWheel_restores_iff.trans ⟨?_, ?_⟩⟩
            · intro h package' manifest' staged hname' _ hres' hstage
              obtain rfl := Option.some.inj (hname.symm.trans hname')
              obtain rfl := Except.ok.inj (hres.symm.trans hres')
              exact h staged hstage
            · intro h staged hstage
              exact h package manifest staged hname hstack hres hstage

/-! ## An upgrade that loses a file

`demo` 1 owns `a.py` and `b.py`, version 2 has only `a.py`, and saving the
database raises: `b.py` is gone although the call failed. -/

def demoFile (raw : String) (h : safePath raw = true := by decide) : RelName := ⟨raw, h⟩

def demoDigest : String := String.ofList (List.replicate 64 '0')

def demoManifest : Manifest where
  version := "2"
  runtimeId := "r"
  abi := "a"
  channel := some "stable"
  url := "https://w"
  sha256 := demoDigest
  dependencies := []

def demoWheel : List Member :=
  [⟨"a.py", 1, [2]⟩, ⟨"d.dist-info/WHEEL", 0, []⟩, ⟨"d.dist-info/RECORD", 0, []⟩]

/-- The curated index has `demo` 2, and the operations of `faults` raise. -/
def demoEnv (faults : List Op) : Env where
  packaging := ⟨fun _ => none, fun _ => true, fun _ _ => true⟩
  runtimeId := "r"
  abi := "a"
  curated _ := some fun n => if n = "demo" then some demoManifest else none
  pypi _ _ _ := none
  fetch _ _ := some ⟨1, 1, demoDigest, some demoWheel⟩
  fault _ op := op ∈ faults
  copied _ _ := none
  order _ l := l
  order_perm _ l := List.Perm.refl l

def demoWorld : World where
  db := (∅ : Db).insert "demo"
    ⟨"1", "r", "a", "stable", [demoFile "a.py", demoFile "b.py"], "", 0, 0, true⟩
  user p := if p = ["a.py"] ∨ p = ["b.py"] then some [1] else none
  txns := 1
  needs _ := []

theorem demo_needs_nothing : ∀ package manifest, canonicalize "demo" = some package →
    resolve (demoEnv [.saveDb]) demoWorld.txns package none "stable" = .ok manifest →
    ∀ r ∈ manifestRequirements (demoEnv [.saveDb]).packaging manifest,
      Met (demoEnv [.saveDb]).packaging demoWorld.db r := by
  intro package manifest _ _ r hr
  simp [manifestRequirements, demoEnv] at hr

theorem failed_upgrade_loses_file :
    (install (demoEnv [.saveDb]) "stable" 1 [] "demo" none demoWorld).map
        (fun out => (out.1.ok, out.2.user ["b.py"])) = some (false, none)
      ∧ demoWorld.user ["b.py"] = some [1] := by
  decide +kernel

theorem install_atomic_iff_demo :
    ∃ result w', install (demoEnv [.saveDb]) "stable" 1 [] "demo" none demoWorld
        = some (result, w')
      ∧ ((result.ok = false → w'.user = demoWorld.user ∧ w'.db = demoWorld.db) ↔
        Recoverable (demoEnv [.saveDb]) "stable" [] "demo" none demoWorld) :=
  install_atomic_iff (demoEnv [.saveDb]) "stable" 0 [] "demo" none demoWorld demo_needs_nothing

end Zmux
