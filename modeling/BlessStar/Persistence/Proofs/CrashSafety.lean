import BlessStar.Persistence.Proofs.StoreSound

/-!
# Crashes and recovery

A batch commit that a crash cuts short leaves a sound disk except between the
flip of the manifest and the COMMITTED record: there the WAL calls a batch an
orphan that the manifest already references.
-/

namespace BlessStar.Persistence.Proofs.CrashSafety

open Lib.ByteString Lib.FileSystem
open Persistence Persistence.Wal
open Persistence.Proofs.WalRoundTrip
open Persistence.Proofs.StoreSteps Persistence.Proofs.StoreFiles
open Persistence.Proofs.BatchWrites Persistence.Proofs.StoreSound

def OrphanFile (manifestPath : Path) (d : AttachDisk) (m : Manifest) (p : Path) : Prop :=
  let f := (d (deriveWalPath manifestPath)).getD []
  let last := (walScanLastCommittedEpoch f).1
  ∃ b ∈ (recoverScan last m.batchEpoch f).accepted, IsOrphan last m.batchEpoch b.epoch ∧
    p ∈ b.stagingPaths

structure SparesPath (manifestPath : Path) (d : AttachDisk) (m : Manifest) (uri : Bytes)
    (path : Path) : Prop where
  lf : LF ∉ uri
  own : ¬OwnFile manifestPath path ∧ ¬OwnFile manifestPath (tmpPath path)
  others : ∀ uri' p, uri' ≠ uri → m.canonicalPaths.lookup uri' = some p →
    p ≠ path ∧ p ≠ tmpPath path
  orphan : ¬OrphanFile manifestPath d m path
  epoch : m.batchEpoch.toNat + 1 < 2 ^ 64

structure SparesBatch (manifestPath : Path) (m : Manifest) (staged : List StagedEntry) : Prop where
  lf : ∀ e ∈ staged, LF ∉ e.uri
  files : ∀ e ∈ staged, Unreferenced manifestPath m (e.stagingPath (m.batchEpoch + 1)) ∧
    Unreferenced manifestPath m (tmpPath (e.stagingPath (m.batchEpoch + 1)))
  agree : ∀ e ∈ staged, ∀ f ∈ staged, e.uri ≠ f.uri → e.path = f.path →
    e.expectedRev = f.expectedRev → e.data = f.data
  epoch : m.batchEpoch.toNat + 1 < 2 ^ 64

theorem toNat_nextEpoch {m : Manifest} (h : m.batchEpoch.toNat + 1 < 2 ^ 64) :
    (m.batchEpoch + 1).toNat = m.batchEpoch.toNat + 1 := by
  rw [UInt64.toNat_add]
  exact Nat.mod_eq_of_lt h

theorem noteCommitted_same (c : Committed) (uri : Bytes) (rev : UInt64) (data : Bytes) :
    noteCommitted c uri rev data uri rev = some data := by
  simp [noteCommitted]

theorem noteCommitted_other {c : Committed} {uri uri' : Bytes} {rev rev' : UInt64} {data : Bytes}
    (h : uri' ≠ uri ∨ rev' ≠ rev) : noteCommitted c uri rev data uri' rev' = c uri' rev' := by
  unfold noteCommitted
  by_cases huri : uri' = uri
  · subst huri
    have hrev := h.resolve_left fun hne => hne rfl
    rw [Function.update_self, Function.update_of_ne hrev]
  · rw [Function.update_of_ne huri]

theorem add_one_ne_self (rev : UInt64) : rev ≠ rev + 1 := by
  intro h
  simp at h

theorem noteStaged_current {m : Manifest} {staged : List StagedEntry}
    (hcas : casHolds m staged = true) (c : Committed) (uri : Bytes) :
    noteStaged c staged uri (m.revisionOf uri) = c uri (m.revisionOf uri) := by
  induction staged generalizing c with
  | nil => rfl
  | cons e es ih =>
      rw [casHolds, List.all_cons, Bool.and_eq_true, decide_eq_true_eq] at hcas
      rw [noteStaged, List.foldl_cons]
      refine (ih hcas.2 _).trans (noteCommitted_other ?_)
      by_cases huri : uri = e.uri
      · right
        rw [huri, hcas.1]
        exact add_one_ne_self _
      · exact Or.inl huri

theorem path_eq_of_uri_eq {e f : StagedEntry} (h : e.uri = f.uri) : e.path = f.path := by
  have hpath := e.accepted
  rw [h, f.accepted] at hpath
  exact (Option.some.inj hpath).symm

theorem stageWrites_noted (nextEpoch : UInt64) {staged : List StagedEntry}
    (hagree : ∀ e ∈ staged, ∀ f ∈ staged, e.uri ≠ f.uri → e.path = f.path →
      e.expectedRev = f.expectedRev → e.data = f.data) (c : Committed) (d : AttachDisk) :
    ∀ e ∈ staged, ∃ g ∈ staged, g.uri = e.uri ∧ g.expectedRev = e.expectedRev ∧
      noteStaged c staged e.uri (e.expectedRev + 1) = some g.data ∧
      runSteps (stageWrites nextEpoch staged) d (e.stagingPath nextEpoch) = some g.data := by
  induction staged using List.reverseRecOn with
  | nil => simp
  | append_singleton es f ih =>
      have hnote : noteStaged c (es ++ [f]) =
          noteCommitted (noteStaged c es) f.uri (f.expectedRev + 1) f.data := by
        simp [noteStaged]
      have hdisk : runSteps (stageWrites nextEpoch (es ++ [f])) d =
          writeFileAtomicDisk (f.stagingPath nextEpoch) f.data
            (runSteps (stageWrites nextEpoch es) d) := by
        simp [stageWrites, runSteps_append]
      have ih' := ih fun a ha b hb => hagree a (by simp [ha]) b (by simp [hb])
      intro e he
      rw [hnote, hdisk]
      by_cases hkey : e.uri = f.uri ∧ e.expectedRev = f.expectedRev
      · have hpath : e.stagingPath nextEpoch = f.stagingPath nextEpoch := by
          rw [StagedEntry.stagingPath, StagedEntry.stagingPath, path_eq_of_uri_eq hkey.1, hkey.2]
        refine ⟨f, by simp, hkey.1.symm, hkey.2.symm, ?_, ?_⟩
        · rw [hkey.1, hkey.2, noteCommitted_same]
        · rw [hpath, writeFileAtomicDisk_same]
      · have hes : e ∈ es := by
          rcases List.mem_append.mp he with he | he
          · exact he
          · rw [List.mem_singleton.mp he] at hkey
            exact absurd ⟨rfl, rfl⟩ hkey
        obtain ⟨g, hg, huri, hrev, hnoted, hfile⟩ := ih' e hes
        refine ⟨g, by simp [hg], huri, hrev, ?_, ?_⟩
        · rw [noteCommitted_other, hnoted]
          by_cases hu : e.uri = f.uri
          · right
            simpa using fun hr => hkey ⟨hu, hr⟩
          · exact Or.inl hu
        · by_cases hsame : e.stagingPath nextEpoch = f.stagingPath nextEpoch
          · obtain ⟨hpath, -, hrevs⟩ := makeStagingPath_inj hsame
            have hrevEq : e.expectedRev = f.expectedRev := by simpa using hrevs
            have hne : g.uri ≠ f.uri := by
              rw [huri]
              exact fun hu => hkey ⟨hu, hrevEq⟩
            have hdata : g.data = f.data := hagree g (by simp [hg]) f (by simp) hne
              ((path_eq_of_uri_eq huri).trans hpath) (hrev.trans hrevEq)
            rw [hsame, writeFileAtomicDisk_same, hdata]
          · rw [writeFileAtomicDisk_other hsame (makeStagingPath_ne_tmpPath _ _ _ _), hfile]

section Batch

variable {order : IterOrder} {manifestPath : Path} {d : AttachDisk} {store : AttachStore}
  {c : Committed}

theorem not_zero_mem_stagingPath (e : StagedEntry) (nextEpoch : UInt64) :
    (0 : UInt8) ∉ e.stagingPath nextEpoch := by
  obtain ⟨hsuffix, -, -, -⟩ := uriToPath_spec e.accepted
  rw [cstr_eq_self e.noNul] at hsuffix
  have hpath : (0 : UInt8) ∉ e.path := fun h => e.noNul (hsuffix.subset h)
  have hdec : ∀ n, (0 : UInt8) ∉ decimal n := fun n h =>
    (isDigit_of_mem_numeral (by decide) h).ne_of_toNat (by decide) (Or.inl (by decide)) rfl
  have htext : (0 : UInt8) ∉ ascii ".bs.staging.e" ∧ (0 : UInt8) ∉ ascii ".r" := by decide
  simp only [StagedEntry.stagingPath, makeStagingPath, List.mem_append, not_or]
  exact ⟨⟨⟨⟨hpath, htext.1⟩, hdec _⟩, htext.2⟩, hdec _⟩

theorem walEntry_fits (e : StagedEntry) (nextEpoch : UInt64) :
    (entryPayload (e.walEntry nextEpoch)).length ≤ walMaxRecordBytes := by
  obtain ⟨-, -, hcap, huri⟩ := uriToPath_spec e.accepted
  rw [cstr_eq_self e.noNul] at huri
  have hstaging : (e.stagingPath nextEpoch).length ≤ e.path.length + 55 :=
    length_makeStagingPath_le e.path nextEpoch (e.expectedRev + 1)
  have hlen := length_entryPayload (e.walEntry nextEpoch)
  have huriLen : (cstr (e.walEntry nextEpoch).uri).length = e.uri.length :=
    congrArg List.length (cstr_eq_self e.noNul)
  have hpathLen : (cstr (e.walEntry nextEpoch).stagingPath).length =
      (e.stagingPath nextEpoch).length :=
    congrArg List.length (cstr_eq_self (not_zero_mem_stagingPath e nextEpoch))
  rw [pathCap] at hcap
  rw [walMaxRecordBytes]
  omega

theorem sound_phaseMark (h : Sound order manifestPath d m c) (epoch : UInt64)
    (phase uriSetHash : UInt32) :
    Sound order manifestPath
      ((diskIo order manifestPath).walAppendPhaseMark epoch phase uriSetHash d).2 m c := by
  simp only [diskIo]
  split
  · exact h
  · rename_i hne
    rw [not_or] at hne
    exact h.append (a := .phaseMark epoch phase uriSetHash)
      ((WalAppend.succeeds_phaseMark_iff epoch phase uriSetHash).mpr hne) (by simp [batchOf])

theorem sound_stageStep (hcommits : Commits store)
    (hspares : SparesBatch manifestPath store.manifest store.staged) {f : AttachDisk → AttachDisk}
    (hf : f ∈ stageSteps (diskIo order manifestPath) store)
    (h : Sound order manifestPath d store.manifest c) :
    Sound order manifestPath (f d) store.manifest c := by
  rw [stageSteps_eq, List.mem_cons] at hf
  rcases hf with rfl | hf
  · have hne : store.staged.map (·.walEntry (store.manifest.batchEpoch + 1)) ≠ [] :=
      ((walAppendBatch_ok_iff _ _).mp hcommits.append).1
    simp only [diskIo]
    rw [if_neg hne]
    refine h.append (a := .batch _ _) hcommits.append fun b hb => ?_
    simp only [batchOf, Option.mem_def, Option.some.injEq] at hb
    subst hb
    refine ⟨(toNat_nextEpoch hspares.epoch).le, fun p hp => ?_⟩
    simp only [List.map_map, List.mem_map, Function.comp] at hp
    obtain ⟨e, he, rfl⟩ := hp
    simp only [StagedEntry.walEntry]
    rw [cstr_eq_self (not_zero_mem_stagingPath e _)]
    exact (hspares.files e he).1
  · rw [stageWrites, List.mem_map] at hf
    obtain ⟨e, he, rfl⟩ := hf
    exact h.writeFile e.data (hspares.files e he).1 (hspares.files e he).2

def stepsBeforeFlip (order : IterOrder) (manifestPath : Path) (store : AttachStore) :
    List (AttachDisk → AttachDisk) :=
  stageSteps (diskIo order manifestPath) store ++
    [fun d => ((diskIo order manifestPath).walAppendPhaseMark (store.manifest.batchEpoch + 1)
      walPhaseCommit 0 d).2]

def stepsAtFlip (order : IterOrder) (manifestPath : Path) (store : AttachStore) :
    List (AttachDisk → AttachDisk) :=
  [saveManifestFileSync order manifestPath
      (flipManifest store.manifest (store.manifest.batchEpoch + 1) store.staged),
    fun d => ((diskIo order manifestPath).walAppendCommitted (store.manifest.batchEpoch + 1) d).2]

def stepsAfterFlip (order : IterOrder) (manifestPath : Path) (store : AttachStore) :
    List (AttachDisk → AttachDisk) :=
  [fun d => ((diskIo order manifestPath).walRotate (store.manifest.batchEpoch + 1) d).2,
    fun d => ((diskIo order manifestPath).walPurge (store.manifest.batchEpoch + 1)
      store.walLastPurgeThrough d).2]

theorem batchCommitSteps_eq (order : IterOrder) (manifestPath : Path) (store : AttachStore) :
    batchCommitSteps order manifestPath store =
      stepsBeforeFlip order manifestPath store ++
        (stepsAtFlip order manifestPath store ++ stepsAfterFlip order manifestPath store) := by
  simp [batchCommitSteps, stepsBeforeFlip, stepsAtFlip, stepsAfterFlip, flipSteps, diskIo]

theorem length_beforeFlip (order : IterOrder) (manifestPath : Path) (store : AttachStore) :
    (stepsBeforeFlip order manifestPath store).length = store.staged.length + 2 := by
  simp [stepsBeforeFlip, stageSteps]

theorem sound_beforeFlip (hcommits : Commits store)
    (hspares : SparesBatch manifestPath store.manifest store.staged)
    (h : Sound order manifestPath d store.manifest c) (k : Nat) :
    Sound order manifestPath (crashAfter k (stepsBeforeFlip order manifestPath store) d)
      store.manifest c := by
  refine crashAfter_invariant (P := fun d => Sound order manifestPath d store.manifest c)
    (fun f hf d hd => ?_) h k
  rcases List.mem_append.mp hf with hf | hf
  · exact sound_stageStep hcommits hspares hf hd
  · rw [List.mem_singleton.mp hf]
    exact sound_phaseMark hd _ _ _

theorem beforeFlip_staged (hspares : SparesBatch manifestPath store.manifest store.staged)
    (c : Committed) (d : AttachDisk) :
    ∀ e ∈ store.staged, ∃ data,
      noteStaged c store.staged e.uri (e.expectedRev + 1) = some data ∧
      runSteps (stepsBeforeFlip order manifestPath store) d
        (e.stagingPath (store.manifest.batchEpoch + 1)) = some data := by
  intro e he
  have hown := (hspares.files e he).1.1
  have hwal : e.stagingPath (store.manifest.batchEpoch + 1) ≠ deriveWalPath manifestPath :=
    fun heq => hown (heq ▸ .wal)
  rw [stepsBeforeFlip, stageSteps_eq, List.cons_append, runSteps_cons, runSteps_append]
  obtain ⟨g, -, -, -, hnoted, hfile⟩ := stageWrites_noted
    (store.manifest.batchEpoch + 1) hspares.agree c _ e he
  refine ⟨g.data, hnoted, ?_⟩
  rw [runSteps_cons, runSteps_nil]
  simp only [diskIo]
  split
  · exact hfile
  · rw [appendFile_other hwal]
    exact hfile

theorem mem_flipManifest_revisions {m : Manifest} {nextEpoch : UInt64}
    {staged : List StagedEntry} {uri : Bytes} (h : uri ∈ (flipManifest m nextEpoch staged).revisions) :
    uri ∈ staged.map (·.uri) ∨ uri ∈ m.revisions := by
  by_cases huri : uri ∈ staged.map (·.uri)
  · exact Or.inl huri
  · right
    rw [Finmap.mem_iff] at h ⊢
    obtain ⟨rev, hrev⟩ := h
    have hlookup := ((foldl_record_lookup nextEpoch staged m uri).1 huri).1
    exact ⟨rev, hlookup.symm.trans hrev⟩

theorem sound_atFlip (hspares : SparesBatch manifestPath store.manifest store.staged)
    (h : Sound order manifestPath d store.manifest c)
    (hstaged : ∀ e ∈ store.staged, ∃ data, c e.uri (e.expectedRev + 1) = some data ∧
      d (e.stagingPath (store.manifest.batchEpoch + 1)) = some data) :
    Sound order manifestPath (runSteps (stepsAtFlip order manifestPath store) d)
      (flipManifest store.manifest (store.manifest.batchEpoch + 1) store.staged) c := by
  set next := store.manifest.batchEpoch + 1 with hnext
  set after := flipManifest store.manifest next store.staged with hafter
  have hother : ∀ q, ¬OwnFile manifestPath q →
      runSteps (stepsAtFlip order manifestPath store) d q = d q := by
    intro q hq
    simp only [stepsAtFlip, runSteps_cons, runSteps_nil, diskIo]
    have hwal : q ≠ deriveWalPath manifestPath := fun heq => hq (heq ▸ .wal)
    have hm : q ≠ manifestPath := fun heq => hq (heq ▸ .manifest)
    have hprev : q ≠ prevPath manifestPath := fun heq => hq (heq ▸ .prev)
    have htmp : q ≠ tmpPath manifestPath := fun heq => hq (heq ▸ .tmp)
    rw [appendFile_other hwal, saveManifestFileSync_other hm hprev htmp]
  have hnextN : next.toNat = store.manifest.batchEpoch.toNat + 1 := toNat_nextEpoch hspares.epoch
  refine ⟨Or.inl ?_, h.accepted.flip _ _, fun uri huri => ?_, fun uri p hp => ?_, ?_⟩
  · simp only [stepsAtFlip, runSteps_cons, runSteps_nil, diskIo]
    rw [appendFile_other (deriveWalPath_ne manifestPath).symm, saveManifestFileSync_same]
  · rcases mem_flipManifest_revisions huri with huri | huri
    · obtain ⟨e, he, rfl⟩ := List.mem_map.mp huri
      exact hspares.lf e he
    · exact h.lf uri huri
  · by_cases huri : uri ∈ store.staged.map (·.uri)
    · obtain ⟨e, he, rfl, hrev, hpath⟩ := flipManifest_staged store.manifest next huri
      obtain rfl : e.stagingPath next = p := Option.some.inj (hpath.symm.trans hp)
      obtain ⟨data, hnoted, hfile⟩ := hstaged e he
      have hown := (hspares.files e he).1.1
      exact ⟨hown, data, by rw [hrev, hnoted], by rw [hother _ hown, hfile]⟩
    · obtain ⟨hrev, hpath⟩ := flipManifest_other store.manifest next huri
      obtain ⟨hown, data, hnoted, hfile⟩ := h.files uri p (hpath.symm.trans hp)
      exact ⟨hown, data, by rw [hrev, hnoted], by rw [hother _ hown, hfile]⟩
  · obtain ⟨ops, hops⟩ := h.wal
    have hbatches : batchesOf (ops ++ [.committed next]) = batchesOf ops := by
      rw [batchesOf_append]
      simp [batchesOf, batchOf]
    have hepochs : ∀ b ∈ batchesOf ops, b.epoch.toNat ≤ next.toNat := fun b hb => by
      rw [hnextN]
      exact hops.epochs b hb
    have hmax : next.toNat ≤ (maxCommitted (ops ++ [.committed next])).toNat := by
      have hstep : maxCommitted (ops ++ [.committed next]) = max (maxCommitted ops) next :=
        maxCommitted_append ops (.committed next)
      rw [hstep, max_eq_ite]
      split
      · exact le_rfl
      · rename_i hlt
        rw [UInt64.lt_iff_toNat_lt] at hlt
        omega
    refine ⟨ops ++ [.committed next], ?_, ?_, fun b hb => ?_, fun b hb horphan => ?_⟩
    · intro x hx
      rcases List.mem_append.mp hx with hx | hx
      · exact hops.succeeds x hx
      · rw [List.mem_singleton.mp hx]
        exact WalAppend.succeeds_committed next
    · simp only [stepsAtFlip, runSteps_cons, runSteps_nil, diskIo]
      rw [appendFile_same, saveManifestFileSync_other (deriveWalPath_ne manifestPath)
        (deriveWalPath_ne_prevPath manifestPath) (deriveWalPath_ne_tmpPath manifestPath),
        hops.bytes, walFile_append]
      simp [walFile, WalAppend.run, hnext]
    · rw [hbatches] at hb
      exact (hepochs b hb).trans (Nat.le_succ _)
    · rw [hbatches] at hb
      have hle := hepochs b hb
      rcases horphan with hlt | hlt
      · rw [UInt64.lt_iff_toNat_lt] at hlt
        omega
      · have hlt' : next < b.epoch := hlt
        rw [UInt64.lt_iff_toNat_lt] at hlt'
        omega

theorem sound_afterFlip {m : Manifest} (h : Sound order manifestPath d m c) (k : Nat) :
    Sound order manifestPath (crashAfter k (stepsAfterFlip order manifestPath store) d)
      m c := by
  refine crashAfter_invariant (P := fun d => Sound order manifestPath d m c)
    (fun f hf d hd => ?_) h k
  simp only [stepsAfterFlip, List.mem_cons, List.not_mem_nil, or_false] at hf
  rcases hf with rfl | rfl
  · exact hd.rotate _
  · exact hd.purge _ _

/-- **A batch commit cut short.**  Unless the cut falls between the flip of the
manifest and the COMMITTED record, the disk is sound for the fields before or
after the batch, with the bytes of the batch noted. -/
theorem sound_crash (hcommits : Commits store)
    (hspares : SparesBatch manifestPath store.manifest store.staged)
    (h : Sound order manifestPath d store.manifest c) {k : Nat}
    (hk : k ≠ store.staged.length + 3) :
    (k < store.staged.length + 3 ∧
      Sound order manifestPath (crashAfter k (batchCommitSteps order manifestPath store) d)
        store.manifest (noteStaged c store.staged)) ∨
    (store.staged.length + 3 < k ∧
      Sound order manifestPath (crashAfter k (batchCommitSteps order manifestPath store) d)
        (flipManifest store.manifest (store.manifest.batchEpoch + 1) store.staged)
        (noteStaged c store.staged)) := by
  have hnoted : Sound order manifestPath d store.manifest (noteStaged c store.staged) :=
    h.note (noteStaged_current hcommits.cas c)
  have hbefore := sound_beforeFlip hcommits hspares hnoted k
  have hlen := length_beforeFlip order manifestPath store
  rw [batchCommitSteps_eq, crashAfter_append, hlen]
  by_cases hlow : k < store.staged.length + 3
  · left
    rw [show k - (store.staged.length + 2) = 0 by omega, crashAfter_zero]
    exact ⟨hlow, hbefore⟩
  · right
    refine ⟨by omega, ?_⟩
    obtain ⟨j, rfl⟩ : ∃ j, k = store.staged.length + 2 + (j + 2) :=
      ⟨k - (store.staged.length + 4), by omega⟩
    have hflip : (stepsAtFlip order manifestPath store).length = 2 := rfl
    have hall : crashAfter (store.staged.length + 2 + (j + 2))
        (stepsBeforeFlip order manifestPath store) d =
          runSteps (stepsBeforeFlip order manifestPath store) d :=
      crashAfter_all (by rw [hlen]; omega) d
    have htwo : ∀ d', crashAfter (j + 2) (stepsAtFlip order manifestPath store) d' =
        runSteps (stepsAtFlip order manifestPath store) d' :=
      crashAfter_all (by rw [hflip]; omega)
    rw [hall] at hbefore ⊢
    rw [Nat.add_sub_cancel_left, crashAfter_append, htwo, hflip, Nat.add_sub_cancel]
    exact sound_afterFlip (sound_atFlip hspares hbefore (beforeFlip_staged hspares c d)) j

end Batch

end BlessStar.Persistence.Proofs.CrashSafety
