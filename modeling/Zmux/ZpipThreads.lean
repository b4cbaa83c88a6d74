import Zmux.SharedStore
import Zmux.ZpipRollback

/-!
# install and uninstall in several threads

REST workers and terminal sessions call `zpip` in one process, and nothing
locks the database. Here the calls are programs over the shared database:
every `_load_db` and every `_save_db` is a step of its own, and so is each
block of work on the files. Run alone, the program of `install` is the
`install` of `ZpipInstall` (`alone_installing`).

`install` and `uninstall` change one record of the copy they have loaded
and write the copy back. No update is lost as long as, at every save, the
database differs from the copy in that one record at most
(`no_update_lost`).
-/

namespace Zmux

/-! ## Steps -/

/-- `db[package] = record` or `del db[package]`, ahead of `_save_db(db)`. -/
structure Update where
  package : Name
  record : Option Record

def Update.apply (u : Update) (db : Db) : Db :=
  match u.record with
  | some record => db.insert u.package record
  | none => db.erase u.package

theorem Update.lookup_self (u : Update) (db : Db) :
    (u.apply db).lookup u.package = u.record := by
  unfold Update.apply
  split
  · rename_i record hrecord
    rw [hrecord, AList.lookup_insert]
  · rename_i hrecord
    rw [hrecord, AList.lookup_erase]

theorem Update.lookup_ne {u : Update} {n : Name} (h : n ≠ u.package) (db : Db) :
    (u.apply db).lookup n = db.lookup n := by
  unfold Update.apply
  split
  · exact AList.lookup_insert_ne h
  · exact AList.lookup_erase_ne h

/-- What the calls share besides the database. -/
structure Disk where
  user : Tree
  txns : Txn

def World.disk (w : World) : Disk := ⟨w.user, w.txns⟩

/-- The steps between the loads and the saves. -/
inductive Effect where
  | transaction
  | commit (env : Env) (t : Txn) (package : Name) (db : Db) (staged : Staged)
  | remove (files : List RelName)

abbrev Effect.Answer : Effect → Type
  | .transaction => Txn
  | .commit .. => Option Error
  | .remove _ => Unit

def perform : (e : Effect) → Disk → e.Answer × Disk
  | .transaction, disk => (disk.txns, { disk with txns := disk.txns + 1 })
  | .commit env t package db staged, disk =>
    ((commitTree env t package db staged disk.user).2,
      { disk with user := (commitTree env t package db staged disk.user).1 })
  | .remove files, disk => ((), { disk with user := removeFiles disk.user files })

abbrev Call (α : Type) := Prog Db Update Effect.Answer α

/-! ## The calls -/

/-- `uninstall` of a canonical name; whether it was installed. -/
def uninstalling (package : Name) : Call Bool :=
  .load fun db =>
    match db.lookup package with
    | none => .done false
    | some record =>
      .act (.remove record.files) fun _ => .save db ⟨package, none⟩ (.done true)

def uninstallingAll : List Name → Call Unit
  | [] => .done ()
  | n :: ns =>
    match canonicalize n with
    | none => uninstallingAll ns
    | some package => (uninstalling package).bind fun _ => uninstallingAll ns

/-- The loop over the active requirements. -/
def installingDependencies (packaging : Packaging)
    (call : Name → Option String → Call (Option Result)) (before : Db) :
    List Requirement → (new : List Name) → Call (Option (Option Error × List Name))
  | [], new => .done (some (none, new))
  | r :: rs, new =>
    match canonicalize r.name with
    | none => .done (some (some .invalidName, new))
    | some dependency =>
      match before.lookup dependency with
      | some existing =>
        if satisfies packaging existing r then
          installingDependencies packaging call before rs new
        else
          .done (some (some (.conflict dependency existing.version r.specifier), new))
      | none =>
        (call dependency (exactPin r)).bind fun
          | none => .done none
          | some (.failed result) =>
            .done (some (some (.dependencyFailed dependency result.error), new))
          | some (.installed _) => .load fun db =>
            match db.lookup dependency with
            | none =>
              .done (some (some (.unsatisfied dependency "" r.specifier), new ++ [dependency]))
            | some installed =>
              if satisfies packaging installed r then
                installingDependencies packaging call before rs (new ++ [dependency])
              else
                .done (some (some (.unsatisfied dependency installed.version r.specifier),
                  new ++ [dependency]))

/-- Behind the dependency loop. The download, the extraction and the smoke
test (in `stage`) touch nothing the calls share. -/
def installingWheel (env : Env) (channel : String) (stack : List Name) (t : Txn)
    (package : Name) (manifest : Manifest) (new : List Name) : Call Result :=
  .load fun db =>
    match stage env t package manifest db with
    | .error e =>
      (uninstallingAll new.reverse).bind fun _ => .done (.failed ⟨package, e, true⟩)
    | .ok staged =>
      .act (.commit env t package db staged) fun
        | some e =>
          (uninstallingAll new.reverse).bind fun _ => .done (.failed ⟨package, e, true⟩)
        | none =>
          .save db ⟨package, some (newRecord t manifest channel stack (db.lookup package) staged)⟩
            (.done (.installed
              ⟨package, manifest.version, staged.files.length, staged.sha256, new,
                toolCollisionWarning package⟩))

def installing (env : Env) (channel : String) : (fuel : Nat) → (stack : List Name) →
    (name : String) → (version : Option String) → Call (Option Result)
  | 0, _, _, _ => .done none
  | fuel + 1, stack, name, version =>
    match canonicalize name with
    | none => .done (some (.failed ⟨"", .invalidName, false⟩))
    | some package =>
      if package ∈ stack then
        .done (some (.failed ⟨package, .cycle (stack ++ [package]), true⟩))
      else
        .act .transaction fun t =>
          match resolve env t package version channel with
          | .error e => .done (some (.failed ⟨package, e, true⟩))
          | .ok manifest => .load fun before =>
            (installingDependencies env.packaging
              (installing env channel fuel (stack ++ [package])) before
              (manifestRequirements env.packaging manifest) []).bind fun
              | none => .done none
              | some (some e, new) =>
                (uninstallingAll new.reverse).bind fun _ =>
                  .done (some (.failed ⟨package, e, true⟩))
              | some (none, new) =>
                (installingWheel env channel stack t package manifest new).bind fun result =>
                  .done (some result)

/-! ## Run alone -/

def World.shared (w : World) : Db × Disk := (w.db, w.disk)

def alone {α : Type} (p : Call α) : Db × Disk → α × Db × Disk := p.run Update.apply perform

theorem alone_bind {α β : Type} {p : Call α} {f : α → Call β} {s s' : Db × Disk} {a : α}
    (h : alone p s = (a, s')) : alone (p.bind f) s = alone (f a) s' := by
  unfold alone at h ⊢
  rw [Prog.run_bind, h]

theorem alone_load {α : Type} {next : Db → Call α} (w : World) :
    alone (.load next) w.shared = alone (next w.db) w.shared := rfl

theorem alone_commit {α : Type} {env : Env} {t : Txn} {package : Name} {db : Db}
    {staged : Staged} {next : Option Error → Call α} (w : World) :
    alone (.act (.commit env t package db staged) next) w.shared
      = alone (next (commitTree env t package db staged w.user).2)
        ({ w with user := (commitTree env t package db staged w.user).1 } : World).shared := rfl

theorem alone_uninstalling (package : Name) (w : World) :
    alone (uninstalling package) w.shared
      = ((w.db.lookup package).isSome, (uninstall package w).shared) := by
  rw [uninstalling, alone_load, uninstall]
  cases w.db.lookup package <;> rfl

theorem alone_uninstallingAll : ∀ (ns : List Name) (w : World),
    alone (uninstallingAll ns) w.shared = ((), (uninstallAll ns w).shared)
  | [], _ => rfl
  | n :: ns, w => by
      rw [uninstallingAll, uninstallAll]
      cases canonicalize n with
      | none => exact alone_uninstallingAll ns w
      | some package =>
          dsimp only
          rw [alone_bind (alone_uninstalling package w)]
          exact alone_uninstallingAll ns (uninstall package w)

theorem alone_installingWheel (env : Env) (channel : String) (stack : List Name) (t : Txn)
    (package : Name) (manifest : Manifest) (new : List Name) (w : World) :
    alone (installingWheel env channel stack t package manifest new) w.shared
      = ((installWheel env channel stack t package manifest new w).1,
        (installWheel env channel stack t package manifest new w).2.shared) := by
  rw [installingWheel, alone_load, installWheel]
  cases stage env t package manifest w.db with
  | error e =>
      dsimp only
      rw [alone_bind (alone_uninstallingAll new.reverse w)]
      rfl
  | ok staged =>
      dsimp only
      rw [alone_commit]
      cases commitTree env t package w.db staged w.user with
      | mk user err =>
          cases err with
          | none => rfl
          | some e =>
              dsimp only
              rw [alone_bind (alone_uninstallingAll new.reverse { w with user := user })]
              rfl

/-- The loop stops here, in `installDependencies` and in the program. -/
theorem alone_stops {err err' : Option Error} {new new' : List Name} {w w' : World}
    (h : some (err, new, w) = some (err', new', w')) :
    alone (.done (some (err, new))) w.shared = (some (err', new'), w'.shared) := by
  obtain ⟨rfl, rfl, rfl⟩ : _ ∧ _ ∧ _ := by simpa using h
  rfl

/-- The call returns here, in `install` and in the program. -/
theorem alone_returns {result result' : Result} {w w' : World}
    (h : some (result, w) = some (result', w')) :
    alone (.done (some result)) w.shared = (some result', w'.shared) := by
  obtain ⟨rfl, rfl⟩ : _ ∧ _ := by simpa using h
  rfl

theorem alone_installingDependencies {packaging : Packaging}
    {call : Name → Option String → World → Option (Result × World)}
    {calling : Name → Option String → Call (Option Result)} {before : Db}
    (hcall : ∀ name version w result w', call name version w = some (result, w') →
      alone (calling name version) w.shared = (some result, w'.shared)) :
    ∀ {rs : List Requirement} {new new' : List Name} {w w' : World} {err : Option Error},
      installDependencies packaging call before rs new w = some (err, new', w') →
      alone (installingDependencies packaging calling before rs new) w.shared
        = (some (err, new'), w'.shared)
  | [], _, _, _, _, _, h => by
      rw [installDependencies] at h
      exact alone_stops h
  | r :: rs, new, new', w, w', err, h => by
      rw [installDependencies] at h
      rw [installingDependencies]
      cases hname : canonicalize r.name with
      | none =>
          rw [hname] at h
          exact alone_stops h
      | some dependency =>
          rw [hname] at h
          dsimp only at h ⊢
          cases hbefore : before.lookup dependency with
          | some existing =>
              rw [hbefore] at h
              dsimp only at h ⊢
              split at h
              · rename_i hsat
                rw [if_pos hsat]
                exact alone_installingDependencies hcall h
              · rename_i hsat
                rw [if_neg hsat]
                exact alone_stops h
          | none =>
              rw [hbefore] at h
              dsimp only at h ⊢
              split at h
              · cases h
              · rename_i result w₁ hdependency
                rw [alone_bind (hcall _ _ _ _ _ hdependency)]
                exact alone_stops h
              · rename_i result w₁ hdependency
                rw [alone_bind (hcall _ _ _ _ _ hdependency)]
                dsimp only at h ⊢
                rw [alone_load]
                cases hinstalled : w₁.db.lookup dependency with
                | none =>
                    rw [hinstalled] at h
                    exact alone_stops h
                | some installed =>
                    rw [hinstalled] at h
                    dsimp only at h ⊢
                    split at h
                    · rename_i hsat
                      rw [if_pos hsat]
                      exact alone_installingDependencies hcall h
                    · rename_i hsat
                      rw [if_neg hsat]
                      exact alone_stops h

/-- **Refinement.** Run alone, the program is `install`. -/
theorem alone_installing {env : Env} {channel : String} :
    ∀ {fuel : Nat} {stack : List Name} {name : String} {version : Option String}
      {w w' : World} {result : Result},
      install env channel fuel stack name version w = some (result, w') →
      alone (installing env channel fuel stack name version) w.shared
        = (some result, w'.shared)
  | 0, _, _, _, _, _, _, h => by rw [install] at h; cases h
  | fuel + 1, stack, name, version, w, w', result, h => by
      rw [install] at h
      rw [installing]
      cases hname : canonicalize name with
      | none =>
          rw [hname] at h
          exact alone_returns h
      | some package =>
          rw [hname] at h
          dsimp only at h ⊢
          split at h
          · rename_i hstack
            rw [if_pos hstack]
            exact alone_returns h
          · rename_i hstack
            rw [if_neg hstack]
            have hbegun : ∀ next : Txn → Call (Option Result),
                alone (.act .transaction next) w.shared
                  = alone (next w.txns) ({ w with txns := w.txns + 1 } : World).shared :=
              fun _ => rfl
            rw [hbegun]
            cases hresolve : resolve env w.txns package version channel with
            | error e =>
                rw [hresolve] at h
                exact alone_returns h
            | ok manifest =>
                rw [hresolve] at h
                dsimp only at h ⊢
                rw [alone_load]
                have hcall : ∀ name version w result w',
                    install env channel fuel (stack ++ [package]) name version w
                      = some (result, w') →
                    alone (installing env channel fuel (stack ++ [package]) name version) w.shared
                      = (some result, w'.shared) :=
                  fun _ _ _ _ _ hinstall => alone_installing hinstall
                split at h
                · cases h
                · rename_i e new w₁ hloop
                  rw [alone_bind (alone_installingDependencies hcall hloop)]
                  dsimp only at h ⊢
                  rw [alone_bind (alone_uninstallingAll new.reverse w₁)]
                  exact alone_returns h
                · rename_i new w₁ hloop
                  rw [alone_bind (alone_installingDependencies hcall hloop)]
                  dsimp only at h ⊢
                  rw [alone_bind (alone_installingWheel env channel stack w.txns package manifest
                    new w₁), Option.some.inj h]
                  rfl

/-! ## What a call reports -/

inductive Invocation where
  | install (channel name : String) (version : Option String)
  | uninstall (name : String)

inductive Reply where
  | install (result : Result)
  | uninstall (package : Name) (ok : Bool)
  /-- `canonicalize` raised, or the fuel did not suffice. -/
  | raised

def calling (env : Env) (fuel : Nat) : Invocation → Call Reply
  | .install channel name version => (installing env channel fuel [] name version).bind fun
    | none => .done .raised
    | some result => .done (.install result)
  | .uninstall name =>
    match canonicalize name with
    | none => .done .raised
    | some package => (uninstalling package).bind fun ok => .done (.uninstall package ok)

/-- The record is the one the result of `install` describes. -/
def Installed.Describes (r : Installed) (record : Record) : Prop :=
  record.version = r.version ∧ record.sha256 = r.sha256 ∧ record.files.length = r.files

/-- What a call that returns ok has saved last. -/
def Reply.Saved : Reply → Option Update → Prop
  | .install (.installed r), last =>
    ∃ record, last = some ⟨r.package, some record⟩ ∧ r.Describes record
  | .uninstall package true, last => last = some ⟨package, none⟩
  | _, _ => True

/-- What a call that returns ok is for: `db` has the record, or none. -/
def Reply.Reflected (db : Db) : Reply → Prop
  | .install (.installed r) => ∃ record, db.lookup r.package = some record ∧ r.Describes record
  | .uninstall package true => db.lookup package = none
  | _ => True

def Reply.package : Reply → Name
  | .install (.installed r) => r.package
  | .install (.failed r) => r.package
  | .uninstall package _ => package
  | .raised => ""

theorem ends_uninstalling (package : Name) (last : Option Update) :
    (uninstalling package).Ends (fun ok last => (Reply.uninstall package ok).Saved last) last := by
  intro db
  dsimp only
  split
  · trivial
  · exact fun _ => rfl

theorem ends_installingWheel (env : Env) (channel : String) (stack : List Name) (t : Txn)
    (package : Name) (manifest : Manifest) (new : List Name) (last : Option Update) :
    (installingWheel env channel stack t package manifest new).Ends
      (fun result last => (Reply.install result).Saved last) last := by
  intro db
  dsimp only
  split
  · exact Prog.ends_bind (Prog.ends_of_forall (fun _ _ => trivial) _ _)
  · intro err
    cases err with
    | some e => exact Prog.ends_bind (Prog.ends_of_forall (fun _ _ => trivial) _ _)
    | none => exact ⟨_, rfl, rfl, rfl, List.length_insertionSort _ _⟩

theorem ends_installing (env : Env) (channel : String) (fuel : Nat) (stack : List Name)
    (name : String) (version : Option String) (last : Option Update) :
    (installing env channel fuel stack name version).Ends
      (fun out last => ∀ result, out = some result → (Reply.install result).Saved last) last := by
  cases fuel with
  | zero => exact nofun
  | succ fuel =>
      rw [installing]
      split
      · exact fun _ h => Option.some.inj h ▸ trivial
      · split
        · exact fun _ h => Option.some.inj h ▸ trivial
        · rename_i package _ _
          intro t
          dsimp only
          split
          · exact fun _ h => Option.some.inj h ▸ trivial
          · rename_i manifest _
            intro before
            -- whatever the dependency loop has saved, the wheel is saved after it
            refine Prog.ends_bind (Prog.ends_of_forall (fun out last => ?_) _ _)
            match out with
            | none => exact nofun
            | some (some e, new) =>
                exact Prog.ends_bind (Prog.ends_of_forall
                  (fun _ _ _ h => Option.some.inj h ▸ trivial) _ _)
            | some (none, new) =>
                refine Prog.ends_bind ((ends_installingWheel env channel stack t package manifest
                  new last).imp fun result last hsaved _ h => ?_)
                exact Option.some.inj h ▸ hsaved

theorem ends_calling (env : Env) (fuel : Nat) (invocation : Invocation) (last : Option Update) :
    (calling env fuel invocation).Ends Reply.Saved last := by
  cases invocation with
  | install channel name version =>
      refine Prog.ends_bind ((ends_installing env channel fuel [] name version last).imp
        fun out last hsaved => ?_)
      cases out with
      | none => trivial
      | some result => exact hsaved result rfl
  | uninstall name =>
      rw [calling]
      split
      · trivial
      · rename_i package _
        exact Prog.ends_bind ((ends_uninstalling package last).imp fun _ _ hsaved => hsaved)

/-! ## Interleaved calls -/

section Interleaved

variable {ι : Type} [DecidableEq ι]

abbrev Threads (ι : Type) := System ι Db Update Effect.Answer Disk Reply

/-- One step of the call in thread `i`. -/
def threadStep (s : Threads ι) (i : ι) : Option (Threads ι) := s.step Update.apply perform i

def startThreads (env : Env) (fuel : Nat) (calls : ι → Invocation) (w : World) : Threads ι :=
  System.start (fun i => calling env fuel (calls i)) w.db w.disk

/-- If thread `i` saves now, then the copy it writes back agrees with the
database in every record but the one it changes. -/
def UpToDate (s : Threads ι) (i : ι) : Prop :=
  match s.threads i with
  | .save copy update _ => ∀ n ≠ update.package, copy.lookup n = s.store.lookup n
  | _ => True

/-- The records of a database. -/
def records (db : Db) (n : Name) : Option Record := db.lookup n

theorem records_apply (u : Update) (db : Db) :
    records (u.apply db) = Function.update (records db) u.package u.record := by
  funext n
  by_cases hn : n = u.package
  · subst hn
    rw [Function.update_self]
    exact u.lookup_self db
  · rw [Function.update_of_ne hn]
    exact Update.lookup_ne hn db

omit [DecidableEq ι] in
theorem upToDate_iff {s : Threads ι} {i : ι} :
    UpToDate s i ↔ s.Current Update.apply records i := by
  unfold UpToDate System.Current
  cases s.threads i with
  | done _ => exact Iff.rfl
  | load _ => exact Iff.rfl
  | act _ _ => exact Iff.rfl
  | save copy update next =>
      dsimp only
      rw [records_apply, records_apply]
      constructor
      · intro hagree
        funext n
        by_cases hn : n = update.package
        · rw [hn, Function.update_self, Function.update_self]
        · rw [Function.update_of_ne hn, Function.update_of_ne hn]
          exact hagree n hn
      · intro hsame n hn
        have hat := congrFun hsame n
        rwa [Function.update_of_ne hn, Function.update_of_ne hn] at hat

/-- The last update of thread `i` decides its package, if no other thread
has an update for it. -/
theorem lookup_replayed {i : ι} {u : Update} {db : Db} {log : List (ι × Update)}
    (hlast : System.lastOf i log = some u)
    (hown : ∀ entry ∈ log, entry.2.package = u.package → entry.1 = i) :
    (System.replayed Update.apply log db).lookup u.package = u.record := by
  induction log using List.reverseRecOn with
  | nil => cases hlast
  | append_singleton log entry ih =>
      obtain ⟨j, v⟩ := entry
      rw [System.replayed_snoc]
      by_cases hj : j = i
      · subst hj
        rw [System.lastOf_self] at hlast
        obtain rfl := Option.some.inj hlast
        exact v.lookup_self _
      · rw [System.lastOf_ne (Ne.symm hj)] at hlast
        have hother : u.package ≠ v.package := fun heq =>
          hj (hown (j, v) (by simp) heq.symm)
        rw [Update.lookup_ne hother]
        exact ih hlast fun entry hentry => hown entry (List.mem_append_left _ hentry)

theorem Reply.reflected_of_saved {reply : Reply} {i : ι} {db : Db} {log : List (ι × Update)}
    (hsaved : reply.Saved (System.lastOf i log))
    (hown : ∀ entry ∈ log, entry.2.package = reply.package → entry.1 = i) :
    reply.Reflected (System.replayed Update.apply log db) := by
  match reply, hsaved with
  | .install (.installed r), ⟨record, hlast, hdescribes⟩ =>
      exact ⟨record, lookup_replayed hlast hown, hdescribes⟩
  | .install (.failed _), _ => trivial
  | .uninstall package true, hlast => exact lookup_replayed hlast hown
  | .uninstall package false, _ => trivial
  | .raised, _ => trivial

theorem Reply.Reflected.congr {reply : Reply} {db db' : Db} (h : reply.Reflected db)
    (heq : ∀ n, db'.lookup n = db.lookup n) : reply.Reflected db' := by
  match reply, h with
  | .install (.installed r), ⟨record, hlookup, hdescribes⟩ =>
      exact ⟨record, (heq _).trans hlookup, hdescribes⟩
  | .install (.failed _), _ => trivial
  | .uninstall package true, hlookup => exact (heq package).trans hlookup
  | .uninstall package false, _ => trivial
  | .raised, _ => trivial

/-- **No lost update.** Any calls in any number of threads, in any order of
their steps: as long as every save is up to date, the database is what all
the saved updates make of it, one after the other. Each call that returned
ok has saved what it reports, and unless another thread saves the same
package too, that is what the database has in the end. A save that is not
up to date loses an update at once. -/
theorem no_update_lost {env : Env} {fuel : Nat} {calls : ι → Invocation} {w : World}
    {s : Threads ι}
    (hrun : Reach threadStep UpToDate (startThreads env fuel calls w) s) :
    (∀ n, s.store.lookup n = (System.replayed Update.apply s.log w.db).lookup n)
    ∧ (∀ i reply, s.threads i = .done reply → reply.Saved (System.lastOf i s.log)
        ∧ ((∀ entry ∈ s.log, entry.2.package = reply.package → entry.1 = i) →
          reply.Reflected s.store))
    ∧ ∀ i s', threadStep s i = some s' →
        ((∀ n, s'.store.lookup n = (System.replayed Update.apply s'.log w.db).lookup n)
          ↔ UpToDate s i) := by
  have hview : ∀ u d d', records d = records d' →
      records (Update.apply u d) = records (u.apply d') := by
    intro u d d' heq
    rw [records_apply, records_apply, heq]
  have hkept : records s.store = records (System.replayed Update.apply s.log w.db) :=
    System.lossless_of_reach hview (hrun.imp fun _ _ => upToDate_iff.mp)
  have hends : ∀ i, (s.threads i).Ends Reply.Saved (System.lastOf i s.log) :=
    System.ends_of_reach (fun i => ends_calling env fuel (calls i) none) hrun
  refine ⟨congrFun hkept, fun i reply hdone => ?_, fun i s' hstep => ?_⟩
  · have hsaved := hends i
    rw [hdone] at hsaved
    refine ⟨hsaved, fun hown => ?_⟩
    have hreflected : reply.Reflected (System.replayed Update.apply s.log w.db) :=
      Reply.reflected_of_saved hsaved hown
    exact hreflected.congr (congrFun hkept)
  · rw [upToDate_iff, ← System.lossless_step_iff hview hkept hstep]
    exact ⟨fun h => funext h, congrFun⟩

end Interleaved

/-! ## Two installs at once

`a` and `b` are installed in two threads. Both load the empty database
before either saves, so the record of `a` is lost. -/

def Reply.isOk : Reply → Bool
  | .install result => result.ok
  | .uninstall _ ok => ok
  | .raised => false

def Threads.returnedOk {ι : Type} (s : Threads ι) (i : ι) : Bool :=
  match s.threads i with
  | .done reply => reply.isOk
  | _ => false

def twoInstalls (i : Fin 2) : Invocation :=
  .install "stable" (if i.val = 0 then "a" else "b") none

theorem overlapping_installs_lose_update : ∃ s : Threads (Fin 2),
    Reach threadStep Free (startThreads (chainEnv []) 1 twoInstalls emptyWorld) s
      ∧ s.returnedOk 0 = true ∧ s.returnedOk 1 = true ∧ s.store.lookup "a" = none := by
  obtain ⟨s, hs, hend⟩ := reach_of_replay
    (p := fun s : Threads (Fin 2) =>
      s.returnedOk 0 && s.returnedOk 1 && (s.store.lookup "a").isNone)
    (show (replay threadStep Free (startThreads (chainEnv []) 1 twoInstalls emptyWorld)
      [0, 0, 0, 0, 1, 1, 1, 1, 0, 1]).map _ = some true by decide +kernel)
  simp only [Bool.and_eq_true, Option.isNone_iff_eq_none] at hend
  exact ⟨s, hs, hend.1.1, hend.1.2, hend.2⟩

/-- The copy is the database itself. -/
def SameCopy (s : Threads (Fin 2)) (i : Fin 2) : Bool :=
  match s.threads i with
  | .save copy _ _ => copy.entries = s.store.entries
  | _ => true

theorem upToDate_of_sameCopy (s : Threads (Fin 2)) (i : Fin 2) (h : SameCopy s i = true) :
    UpToDate s i := by
  unfold SameCopy at h
  unfold UpToDate
  split
  · rename_i copy _ _ hthread
    rw [hthread] at h
    intro n _
    rw [AList.ext (of_decide_eq_true h)]
  · trivial

/-- One after the other, both installs are in the database. -/
theorem installs_in_turn_keep_both : ∃ s : Threads (Fin 2),
    Reach threadStep UpToDate (startThreads (chainEnv []) 1 twoInstalls emptyWorld) s
      ∧ s.returnedOk 0 = true ∧ s.returnedOk 1 = true
      ∧ ∀ n, s.store.lookup n = (System.replayed Update.apply s.log emptyWorld.db).lookup n := by
  obtain ⟨s, hs, hend⟩ := reach_of_replay
    (p := fun s : Threads (Fin 2) => s.returnedOk 0 && s.returnedOk 1)
    (show (replay threadStep (fun s i => SameCopy s i = true)
      (startThreads (chainEnv []) 1 twoInstalls emptyWorld)
      [0, 0, 0, 0, 0, 1, 1, 1, 1, 1]).map _ = some true by decide +kernel)
  rw [Bool.and_eq_true] at hend
  have hrun := hs.imp upToDate_of_sameCopy
  exact ⟨s, hrun, hend.1, hend.2, (no_update_lost hrun).1⟩

end Zmux
