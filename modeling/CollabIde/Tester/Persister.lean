import CollabIde.Ide.DiskPersister

/-!
# The persister of the tests

`tester1/persister.go` keeps in memory what `diskpersister.go` keeps in files. Nil leaves a file as
it is, and clears what is in memory. So the two hold the same after every call of a sequence exactly
if nil is passed only for what is empty (`persisters_agree`).
-/

namespace CollabIde

namespace DiskPersister

variable (dp : DiskPersister)

def clone : Option Bytes → Option Bytes
  | none => none
  | some b => some b

def readRaftState : Option Bytes := clone dp.raftstate

def raftStateSize : ℕ := (dp.raftstate.getD []).length

def readSnapshot : Option Bytes := clone dp.snapshot

def snapshotSize : ℕ := (dp.snapshot.getD []).length

theorem clone_eq (b : Option Bytes) : clone b = b := by cases b <;> rfl

end DiskPersister

namespace Tester

structure Persister where
  raftstate : Option Bytes
  snapshot : Option Bytes

def makePersister : Persister := ⟨none, none⟩

/-- The copy of nil is empty. -/
def clone (orig : Option Bytes) : Option Bytes := some (orig.getD [])

namespace Persister

variable (ps : Persister)

def save (_ : Persister) (raftstate snapshot : Option Bytes) : Persister :=
  ⟨clone raftstate, clone snapshot⟩

def readRaftState : Option Bytes := clone ps.raftstate

def raftStateSize : ℕ := (ps.raftstate.getD []).length

def readSnapshot : Option Bytes := clone ps.snapshot

def snapshotSize : ℕ := (ps.snapshot.getD []).length

end Persister

end Tester

open DiskPersister

/-- What the two persisters read is the same, nil taken as empty. -/
structure Same (dp : DiskPersister) (ps : Tester.Persister) : Prop where
  raftState : dp.readRaftState.getD [] = ps.readRaftState.getD []
  snapshot : dp.readSnapshot.getD [] = ps.readSnapshot.getD []
  raftStateSize : dp.raftStateSize = ps.raftStateSize
  snapshotSize : dp.snapshotSize = ps.snapshotSize

theorem same_iff {dp : DiskPersister} {ps : Tester.Persister} : Same dp ps ↔
    dp.raftstate.getD [] = ps.raftstate.getD [] ∧ dp.snapshot.getD [] = ps.snapshot.getD [] := by
  have hread (o : Option Bytes) : (clone o).getD [] = o.getD [] := by rw [clone_eq]
  constructor
  · intro h
    exact ⟨(hread _).symm.trans h.raftState, (hread _).symm.trans h.snapshot⟩
  · rintro ⟨hr, hs⟩
    exact ⟨(hread _).trans hr, (hread _).trans hs, congrArg List.length hr, congrArg List.length hs⟩

/-- The two persisters side by side. -/
structure Persisters where
  disk : Disk String UInt8
  dp : DiskPersister
  ps : Tester.Persister

namespace Persisters

def make (dir : String) (disk : Disk String UInt8) : Persisters :=
  ⟨disk, makeDiskPersister dir disk, Tester.makePersister⟩

variable (t : Persisters)

/-- A call of `Save`, on both. -/
def save (call : Option Bytes × Option Bytes) : Option Persisters :=
  (t.disk.run (t.dp.save call.1 call.2).2).map fun disk =>
    ⟨disk, (t.dp.save call.1 call.2).1, t.ps.save call.1 call.2⟩

/-- They hold the same, also once the directory is opened again. -/
def Agree : Prop := Same t.dp t.ps ∧ Same (makeDiskPersister t.dp.dir t.disk) t.ps

/-- Nil has left what it stands for unchanged. -/
structure Unchanged (t' : Persisters) (call : Option Bytes × Option Bytes) : Prop where
  raftState : call.1 = none → t'.dp.readRaftState.getD [] = t.dp.readRaftState.getD [] ∧
    t'.ps.readRaftState.getD [] = t.ps.readRaftState.getD []
  snapshot : call.2 = none → t'.dp.readSnapshot.getD [] = t.dp.readSnapshot.getD [] ∧
    t'.ps.readSnapshot.getD [] = t.ps.readSnapshot.getD []

/-- They agree before, between and after the calls, and nil changes nothing. -/
def Agrees : Persisters → List (Option Bytes × Option Bytes) → Prop
  | t, [] => t.Agree
  | t, call :: calls => t.Agree ∧
    ∃ t', t.save call = some t' ∧ t.Unchanged t' call ∧ Agrees t' calls

/-- Nil stands only for what is empty. -/
def NilForEmpty (call : Option Bytes × Option Bytes) : Prop :=
  (call.1 = none → t.dp.raftStateSize = 0) ∧ (call.2 = none → t.dp.snapshotSize = 0)

/-- This is so in each of the calls. -/
def NilsForEmpty : Persisters → List (Option Bytes × Option Bytes) → Prop
  | _, [] => True
  | t, call :: calls => t.NilForEmpty call ∧ ∃ t', t.save call = some t' ∧ NilsForEmpty t' calls

variable {t} {call : Option Bytes × Option Bytes}

/-- A piece after a call: on disk, and in memory. -/
theorem piece_eq_iff {o held : Option Bytes} :
    (o.or held).getD [] = (Tester.clone o).getD [] ↔ (o = none → (held.getD []).length = 0) := by
  cases o with
  | none =>
    exact ⟨fun h _ => List.length_eq_zero_iff.mpr h, fun h => List.length_eq_zero_iff.mp (h rfl)⟩
  | some b => exact iff_of_true rfl fun h => absurd h (Option.some_ne_none b)

/-- One call. -/
theorem save_spec (hopen : makeDiskPersister t.dp.dir t.disk = t.dp) (ha : t.Agree)
    (call : Option Bytes × Option Bytes) : ∃ t', t.save call = some t' ∧
      makeDiskPersister t'.dp.dir t'.disk = t'.dp ∧
      (t'.Agree ∧ t.Unchanged t' call ↔ t.NilForEmpty call) := by
  obtain ⟨disk', hd, -⟩ := run_save t.dp t.disk call.1 call.2
  have hopen' := makeDiskPersister_save hopen hd
  refine ⟨_, Option.map_eq_some_iff.mpr ⟨disk', hd, rfl⟩, hopen', ?_⟩
  have hsame : Same (t.dp.save call.1 call.2).1 (t.ps.save call.1 call.2) ↔ t.NilForEmpty call :=
    same_iff.trans (and_congr piece_eq_iff piece_eq_iff)
  have hagree : Persisters.Agree ⟨disk', (t.dp.save call.1 call.2).1, t.ps.save call.1 call.2⟩ ↔
      t.NilForEmpty call :=
    ⟨fun h => hsame.mp h.1, fun h => ⟨hsame.mpr h, (congrArg (Same · _) hopen').mpr (hsame.mpr h)⟩⟩
  rw [hagree]
  refine ⟨And.left, fun hnil => ⟨hnil, ?_⟩⟩
  -- what is empty stays empty
  obtain ⟨hr, hs⟩ := same_iff.mp ha.1
  have hkept {held held' : Option Bytes} (heq : held.getD [] = held'.getD [])
      (hlen : (held.getD []).length = 0) :
      (clone (Option.or none held)).getD [] = (clone held).getD [] ∧
        (Tester.clone (Tester.clone none)).getD [] = (Tester.clone held').getD [] := by
    rw [clone_eq, clone_eq]
    exact ⟨rfl, (List.length_eq_zero_iff.mp (heq ▸ hlen)).symm⟩
  constructor
  · intro hcall
    have hk := hkept hr (hnil.1 hcall)
    rw [← hcall] at hk
    exact hk
  · intro hcall
    have hk := hkept hs (hnil.2 hcall)
    rw [← hcall] at hk
    exact hk

/-- **The persisters agree** after every call exactly if nil stands only for what is empty. -/
theorem persisters_agree {dir : String} {disk : Disk String UInt8}
    (hfresh : pair dir disk = (none, none)) (calls : List (Option Bytes × Option Bytes)) :
    (make dir disk).Agrees calls ↔ (make dir disk).NilsForEmpty calls := by
  have hagree : (make dir disk).Agree := by
    simp only [pair, Prod.mk.injEq] at hfresh
    have hsame : Same (makeDiskPersister dir disk) Tester.makePersister :=
      same_iff.mpr ⟨by rw [hfresh.1]; rfl, by rw [hfresh.2]; rfl⟩
    exact ⟨hsame, hsame⟩
  have hopen : makeDiskPersister (make dir disk).dp.dir (make dir disk).disk = (make dir disk).dp :=
    rfl
  generalize make dir disk = t at hagree hopen
  induction calls generalizing t with
  | nil => exact iff_of_true hagree trivial
  | cons call calls ih =>
    obtain ⟨t', hsave, hopen', hiff⟩ := save_spec hopen hagree call
    simp only [Agrees, NilsForEmpty]
    constructor
    · rintro ⟨-, t₁, h₁, hkept, hrest⟩
      cases hsave.symm.trans h₁
      have ha' : t'.Agree := by
        cases calls with
        | nil => exact hrest
        | cons => exact hrest.1
      exact ⟨hiff.mp ⟨ha', hkept⟩, t', hsave, (ih t' ha' hopen').mp hrest⟩
    · rintro ⟨hnil, t₁, h₁, hrest⟩
      cases hsave.symm.trans h₁
      obtain ⟨ha', hkept⟩ := hiff.mpr hnil
      exact ⟨hagree, t', hsave, hkept, (ih t' ha' hopen').mpr hrest⟩

/-- The state, then both, then an empty snapshot. -/
theorem persisters_agree_saved : (make "peer-0" fun _ => none).Agrees
    [(some [0], none), (some [1], some [2]), (some [3], some [])] := by
  refine (persisters_agree rfl _).mpr ?_
  have hsome {b : Bytes} {p : Prop} (h : some b = none) : p := absurd h (Option.some_ne_none b)
  exact ⟨⟨hsome, fun _ => rfl⟩, _, rfl, ⟨hsome, hsome⟩, _, rfl, ⟨hsome, hsome⟩, _, rfl, trivial⟩

/-- The second call leaves the snapshot on disk, and clears it in memory. -/
theorem nil_clears_snapshot : ¬ ∀ calls, (make "peer-0" fun _ => none).Agrees calls := by
  intro h
  obtain ⟨-, t₁, h₁, -, -, t₂, h₂, -, hagree, -⟩ := h [(some [0], some [1]), (some [2], none)]
  cases h₁
  cases h₂
  exact absurd hagree.snapshotSize (by decide)

end Persisters

end CollabIde
