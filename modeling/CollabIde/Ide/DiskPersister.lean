import CollabIde.Lib.Disk
import CollabIde.Raft.Types

/-!
# The persister on disk

`diskpersister.go`: Raft's state and the snapshot are two files, each of which is written to a
temporary path and then renamed. A crash in `Save` leaves both of them whole. It leaves them from
different calls if it comes between the two renames and the call changes both (`save_atomic_iff`).

A call that runs to its end does what Raft's model takes a persister to do (`run_save_persister`).
-/

namespace CollabIde

abbrev Bytes : Type := List UInt8

structure DiskPersister where
  dir : String
  raftstate : Option Bytes
  snapshot : Option Bytes

namespace DiskPersister

variable (dp : DiskPersister)

def raftstatePath : String := dp.dir ++ "/raftstate"

def snapshotPath : String := dp.dir ++ "/snapshot"

/-- A file that cannot be read is nil. -/
def makeDiskPersister (dir : String) (disk : Disk String UInt8) : DiskPersister where
  dir := dir
  raftstate := disk (dir ++ "/raftstate")
  snapshot := disk (dir ++ "/snapshot")

def atomicWrite (path : String) (data : Bytes) : List (Disk.Op String UInt8) :=
  [.writeFile (path ++ ".tmp") data, .rename (path ++ ".tmp") path]

/-- The cache after the call, and what the call does on disk. -/
def save (raftstate snapshot : Option Bytes) : DiskPersister × List (Disk.Op String UInt8) :=
  ({ dp with raftstate := raftstate.or dp.raftstate, snapshot := snapshot.or dp.snapshot },
    raftstate.elim [] (atomicWrite dp.raftstatePath) ++
      snapshot.elim [] (atomicWrite dp.snapshotPath))

/-- What `MakeDiskPersister` reads. -/
def pair (dir : String) (disk : Disk String UInt8) : Option Bytes × Option Bytes :=
  ((makeDiskPersister dir disk).raftstate, (makeDiskPersister dir disk).snapshot)

/-- Nil stands for the old value. -/
def overwrite (p : Option Bytes × Option Bytes) (raftstate snapshot : Option Bytes) :
    Option Bytes × Option Bytes :=
  (raftstate.or p.1, snapshot.or p.2)

/-! ## The files -/

theorem path_ne {dir a b : String} (h : a ≠ b) : dir ++ a ≠ dir ++ b :=
  fun he => h ((String.append_right_inj dir).mp he)

variable {dp} {disk disk' : Disk String UInt8} {raftstate snapshot : Option Bytes} {data : Bytes}
  {k : ℕ} {cut : Option ℕ}

/-- The state is renamed. -/
theorem pair_raftstate :
    pair dp.dir (disk.replace (dp.raftstatePath ++ ".tmp") dp.raftstatePath data) =
      (some data, (pair dp.dir disk).2) := by
  refine Prod.ext Disk.replace_self (Disk.replace_of_ne ?_ (path_ne (by decide)))
  rw [raftstatePath, String.append_assoc]
  exact path_ne (by decide)

/-- The snapshot is renamed. -/
theorem pair_snapshot :
    pair dp.dir (disk.replace (dp.snapshotPath ++ ".tmp") dp.snapshotPath data) =
      ((pair dp.dir disk).1, some data) := by
  refine Prod.ext (Disk.replace_of_ne ?_ (path_ne (by decide))) Disk.replace_self
  rw [snapshotPath, String.append_assoc]
  exact path_ne (by decide)

/-- Only a temporary file has changed. -/
theorem pair_of_tmp {a : String} (ha : a ≠ "/raftstate" ∧ a ≠ "/snapshot")
    (h : ∀ p, p ≠ dp.dir ++ a → disk' p = disk p) : pair dp.dir disk' = pair dp.dir disk :=
  Prod.ext (h _ (path_ne ha.1.symm)) (h _ (path_ne ha.2.symm))

/-- A crash while the state is written, or behind it. -/
theorem crash_raftstate {rest : List (Disk.Op String UInt8)}
    (h : disk.crash (raftstate.elim [] (atomicWrite dp.raftstatePath) ++ rest) k cut =
      some disk') :
    pair dp.dir disk' = pair dp.dir disk ∨ ∃ disk₁ j,
      pair dp.dir disk₁ = overwrite (pair dp.dir disk) raftstate none ∧
        disk₁.crash rest j cut = some disk' := by
  cases raftstate with
  | none => exact .inr ⟨disk, k, rfl, h⟩
  | some data =>
    obtain hd | ⟨j, hd⟩ := Disk.crash_replace h
    · rw [raftstatePath, String.append_assoc] at hd
      exact .inl (pair_of_tmp ⟨by decide, by decide⟩ hd)
    · exact .inr ⟨_, j, pair_raftstate, hd⟩

/-- A crash while the snapshot is written. -/
theorem crash_snapshot
    (h : disk.crash (snapshot.elim [] (atomicWrite dp.snapshotPath)) k cut = some disk') :
    pair dp.dir disk' = pair dp.dir disk ∨
      pair dp.dir disk' = overwrite (pair dp.dir disk) none snapshot := by
  cases snapshot with
  | none =>
    cases h
    exact .inl rfl
  | some data =>
    obtain hd | ⟨j, hd⟩ := Disk.crash_replace h
    · rw [snapshotPath, String.append_assoc] at hd
      exact .inl (pair_of_tmp ⟨by decide, by decide⟩ hd)
    · cases hd
      exact .inr pair_snapshot

/-- What a crash leaves of a call: nothing, the state, or all. -/
theorem crash_save (h : disk.crash (dp.save raftstate snapshot).2 k cut = some disk') :
    pair dp.dir disk' = pair dp.dir disk ∨
      pair dp.dir disk' = overwrite (pair dp.dir disk) raftstate none ∨
      pair dp.dir disk' = overwrite (pair dp.dir disk) raftstate snapshot := by
  obtain hd | ⟨disk₁, j, h₁, h⟩ := crash_raftstate h
  · exact .inl hd
  right
  obtain hd | hd := crash_snapshot h
  · exact .inl (hd.trans h₁)
  · right
    rw [hd, h₁]
    rfl

/-! ## A call that runs to its end -/

variable (dp) in
/-- The state is in its file. -/
theorem run_raftstate (disk : Disk String UInt8) (raftstate : Option Bytes) :
    ∃ disk', disk.run (raftstate.elim [] (atomicWrite dp.raftstatePath)) = some disk' ∧
      pair dp.dir disk' = overwrite (pair dp.dir disk) raftstate none := by
  cases raftstate with
  | none => exact ⟨disk, rfl, rfl⟩
  | some data => exact ⟨_, Disk.run_replace, pair_raftstate⟩

variable (dp) in
theorem run_snapshot (disk : Disk String UInt8) (snapshot : Option Bytes) :
    ∃ disk', disk.run (snapshot.elim [] (atomicWrite dp.snapshotPath)) = some disk' ∧
      pair dp.dir disk' = overwrite (pair dp.dir disk) none snapshot := by
  cases snapshot with
  | none => exact ⟨disk, rfl, rfl⟩
  | some data => exact ⟨_, Disk.run_replace, pair_snapshot⟩

variable (dp) in
/-- Both are in their files. -/
theorem run_save (disk : Disk String UInt8) (raftstate snapshot : Option Bytes) :
    ∃ disk', disk.run (dp.save raftstate snapshot).2 = some disk' ∧
      pair dp.dir disk' = overwrite (pair dp.dir disk) raftstate snapshot := by
  obtain ⟨disk₁, h₁, hp₁⟩ := run_raftstate dp disk raftstate
  obtain ⟨disk₂, h₂, hp₂⟩ := run_snapshot dp disk₁ snapshot
  refine ⟨disk₂, Disk.run_append h₁ h₂, ?_⟩
  rw [hp₂, hp₁]
  rfl

/-- The cache holds what the files hold. -/
theorem makeDiskPersister_save {disk' : Disk String UInt8}
    (hdp : makeDiskPersister dp.dir disk = dp)
    (h : disk.run (dp.save raftstate snapshot).2 = some disk') :
    makeDiskPersister dp.dir disk' = (dp.save raftstate snapshot).1 := by
  obtain ⟨disk₁, h₁, hp⟩ := run_save dp disk raftstate snapshot
  cases h₁.symm.trans h
  have hr : (makeDiskPersister dp.dir disk').raftstate = _ := congrArg Prod.fst hp
  have hs : (makeDiskPersister dp.dir disk').snapshot = _ := congrArg Prod.snd hp
  unfold pair at hr hs
  rw [hdp] at hr hs
  change DiskPersister.mk dp.dir _ _ = DiskPersister.mk dp.dir _ _
  exact congr (congrArg (DiskPersister.mk dp.dir) hr) hs

/-- The files hold what Raft's persister holds. -/
theorem run_save_persister {C D : Type} (enc : PersistentState C → Bytes) (encD : D → Bytes)
    {ps : Persister C D} (state : Option (PersistentState C)) (data : Option D)
    (h : pair dp.dir disk = (ps.raftstate.map enc, ps.snapshot.map encD)) :
    ∃ disk', disk.run (dp.save (state.map enc) (data.map encD)).2 = some disk' ∧
      pair dp.dir disk' =
        ((ps.save state data).raftstate.map enc, (ps.save state data).snapshot.map encD) := by
  obtain ⟨disk', hd, hp⟩ := run_save dp disk (state.map enc) (data.map encD)
  refine ⟨disk', hd, ?_⟩
  rw [hp, h]
  exact Prod.ext Option.map_or.symm Option.map_or.symm

/-! ## A crash -/

/-- Between the two renames. -/
theorem crash_between (dp : DiskPersister) (disk : Disk String UInt8)
    (raftstate snapshot : Option Bytes) :
    ∃ k disk', disk.crash (dp.save raftstate snapshot).2 k none = some disk' ∧
      pair dp.dir disk' = overwrite (pair dp.dir disk) raftstate none := by
  obtain ⟨disk', hd, hp⟩ := run_raftstate dp disk raftstate
  exact ⟨_, disk', Disk.crash_append hd, hp⟩

/-- The call changes one of the two at most. -/
def ChangesOne (p : Option Bytes × Option Bytes) (raftstate snapshot : Option Bytes) : Prop :=
  (raftstate = none ∨ raftstate = p.1) ∨ (snapshot = none ∨ snapshot = p.2)

theorem or_eq_right_iff {α : Type} {x y : Option α} : x.or y = y ↔ x = none ∨ x = y := by
  cases x with
  | none => exact ⟨fun _ => .inl rfl, fun _ => rfl⟩
  | some a => exact ⟨.inr, fun h => h.resolve_left (Option.some_ne_none a)⟩

/-- After a crash anywhere in the call there is the old pair or the new one, exactly if the call
changes one of the two at most. -/
theorem save_atomic_iff (dp : DiskPersister) (disk : Disk String UInt8)
    (raftstate snapshot : Option Bytes) :
    (∀ k cut disk', disk.crash (dp.save raftstate snapshot).2 k cut = some disk' →
      pair dp.dir disk' = pair dp.dir disk ∨
        pair dp.dir disk' = overwrite (pair dp.dir disk) raftstate snapshot) ↔
    ChangesOne (pair dp.dir disk) raftstate snapshot := by
  constructor
  · intro h
    obtain ⟨k, disk', hc, hp⟩ := crash_between dp disk raftstate snapshot
    obtain hd | hd := h k none disk' hc
    · left
      exact or_eq_right_iff.mp (congrArg Prod.fst (hp.symm.trans hd))
    · right
      exact or_eq_right_iff.mp (congrArg Prod.snd (hp.symm.trans hd)).symm
  · intro h k cut disk' hc
    obtain hd | hd | hd := crash_save hc
    · exact .inl hd
    · obtain h | h := h
      · left
        rw [hd]
        exact Prod.ext (or_eq_right_iff.mpr h) rfl
      · right
        rw [hd]
        exact Prod.ext rfl (or_eq_right_iff.mpr h).symm
    · exact .inr hd

/-- What the first call of a peer leaves on an empty disk. -/
def savedOnce : Option (Disk String UInt8) :=
  Disk.run (fun _ => none) ((makeDiskPersister "peer-0" fun _ => none).save (some [0]) (some [0])).2

/-- The next call changes both, and the crash comes behind the first rename: the new state, and the
old snapshot. -/
theorem save_not_atomic : ¬ ∀ disk ∈ savedOnce, ∀ k cut disk',
    disk.crash ((makeDiskPersister "peer-0" disk).save (some [1]) (some [1])).2 k cut =
      some disk' →
    pair "peer-0" disk' = pair "peer-0" disk ∨
      pair "peer-0" disk' = overwrite (pair "peer-0" disk) (some [1]) (some [1]) := by
  intro h
  obtain ⟨disk, hd, hp⟩ := run_save (makeDiskPersister "peer-0" fun _ => none) (fun _ => none)
    (some [0]) (some [0])
  obtain ⟨k, disk', hc, hp'⟩ :=
    crash_between (makeDiskPersister "peer-0" disk) disk (some [1]) (some [1])
  have hatomic := h disk hd k none disk' hc
  change pair "peer-0" disk = (some [0], some [0]) at hp
  change pair "peer-0" disk' = overwrite (pair "peer-0" disk) (some [1]) none at hp'
  rw [hp', hp] at hatomic
  revert hatomic
  decide

end DiskPersister

end CollabIde
