import BlessStar.Persistence.Proofs.BatchWrites
import BlessStar.Persistence.Proofs.WalCorruption

/-!
# Soundness of a store's disk

The invariant behind crash recovery: the manifest file records the fields, each
recorded path holds the committed bytes, the WAL is a sequence of appends, and
no file that recovery may delete is one that the manifest records.
-/

namespace BlessStar.Persistence.Proofs.StoreSound

open Lib.ByteString Lib.FileSystem
open Persistence Persistence.Wal
open Persistence.Proofs.WalRoundTrip
open Persistence.Proofs.WalCorruption Persistence.Proofs.ManifestRoundTrip
open Persistence.Proofs.StoreSteps Persistence.Proofs.StoreFiles

abbrev Committed := Bytes → UInt64 → Option Bytes

def Unreferenced (manifestPath : Path) (m : Manifest) (p : Path) : Prop :=
  ¬OwnFile manifestPath p ∧ ∀ uri, m.canonicalPaths.lookup uri ≠ some p

/-- The active WAL file holds the appends `ops`. -/
structure WalSound (manifestPath : Path) (d : AttachDisk) (m : Manifest) (ops : List WalAppend) :
    Prop where
  succeeds : ∀ a ∈ ops, a.Succeeds
  bytes : (d (deriveWalPath manifestPath)).getD [] = walFile ops
  epochs : ∀ b ∈ batchesOf ops, b.epoch.toNat ≤ m.batchEpoch.toNat + 1
  orphans : ∀ b ∈ batchesOf ops, IsOrphan (maxCommitted ops) m.batchEpoch b.epoch →
    ∀ p ∈ b.stagingPaths, Unreferenced manifestPath m p

structure Sound (order : IterOrder) (manifestPath : Path) (d : AttachDisk) (m : Manifest)
    (c : Committed) : Prop where
  manifest : d manifestPath = some (manifestText order m) ∨ (d manifestPath = none ∧ m = {})
  accepted : Accepted m
  lf : ∀ uri ∈ m.revisions, LF ∉ uri
  files : ∀ uri p, m.canonicalPaths.lookup uri = some p → ¬OwnFile manifestPath p ∧
    ∃ data, c uri (m.revisionOf uri) = some data ∧ d p = some data
  wal : ∃ ops, WalSound manifestPath d m ops

section

variable {order : IterOrder} {manifestPath : Path} {d d' : AttachDisk} {m : Manifest}
  {c c' : Committed}

theorem Sound.lineSafe (h : Sound order manifestPath d m c) : LineSafe m :=
  h.accepted.lineSafe h.lf

theorem Sound.load (h : Sound order manifestPath d m c) :
    loadManifestFileSync d manifestPath {} = (.ok, m, d) := by
  rcases h.manifest with htext | ⟨hnone, rfl⟩
  · exact loadManifestFileSync_manifestText h.lineSafe htext {}
  · rw [loadManifestFileSync, if_pos hnone]

theorem Sound.fresh (hm : d manifestPath = none) (hwal : d (deriveWalPath manifestPath) = none) :
    Sound order manifestPath d {} c where
  manifest := Or.inr ⟨hm, rfl⟩
  accepted := Accepted.empty
  lf uri huri := absurd huri Finmap.notMem_empty
  files uri p hp := by simp at hp
  wal := ⟨[], by simp, by rw [hwal]; rfl, by simp [batchesOf], by simp [batchesOf]⟩

theorem Sound.of_agree (h : Sound order manifestPath d m c)
    (hm : d' manifestPath = d manifestPath)
    (hwal : (d' (deriveWalPath manifestPath)).getD [] = (d (deriveWalPath manifestPath)).getD [])
    (hfiles : ∀ uri p, m.canonicalPaths.lookup uri = some p → d' p = d p) :
    Sound order manifestPath d' m c where
  manifest := by rw [hm]; exact h.manifest
  accepted := h.accepted
  lf := h.lf
  files uri p hp := by
    rw [hfiles uri p hp]
    exact h.files uri p hp
  wal := by
    obtain ⟨ops, hops⟩ := h.wal
    exact ⟨ops, hops.succeeds, by rw [hwal]; exact hops.bytes, hops.epochs, hops.orphans⟩

theorem Sound.note (h : Sound order manifestPath d m c)
    (hc : ∀ uri, c' uri (m.revisionOf uri) = c uri (m.revisionOf uri)) :
    Sound order manifestPath d m c' where
  manifest := h.manifest
  accepted := h.accepted
  lf := h.lf
  files uri p hp := by
    rw [hc uri]
    exact h.files uri p hp
  wal := h.wal

theorem maxCommitted_append (ops : List WalAppend) (a : WalAppend) :
    maxCommitted (ops ++ [a]) = (committedEpochs [a]).foldl max (maxCommitted ops) := by
  rw [maxCommitted, committedEpochs_append, List.foldl_append]
  rfl

theorem le_maxCommitted_append (ops : List WalAppend) (a : WalAppend) :
    (maxCommitted ops).toNat ≤ (maxCommitted (ops ++ [a])).toNat := by
  rw [maxCommitted_append]
  cases a with
  | committed epoch =>
      have hmax : (committedEpochs [.committed epoch]).foldl max (maxCommitted ops) =
          max (maxCommitted ops) epoch := rfl
      rw [hmax, max_eq_ite]
      split
      · rename_i hlt
        rw [UInt64.lt_iff_toNat_lt] at hlt
        omega
      · exact le_rfl
  | batch epoch entries => exact le_rfl
  | phaseMark epoch phase uriSetHash => exact le_rfl

theorem isOrphan_mono {last last' epoch m : UInt64} (h : IsOrphan last' m epoch)
    (hle : last.toNat ≤ last'.toNat) : IsOrphan last m epoch := by
  rcases h with h | h
  · left
    rw [UInt64.lt_iff_toNat_lt] at h ⊢
    omega
  · exact Or.inr h

theorem Sound.append (h : Sound order manifestPath d m c) {a : WalAppend} (ha : a.Succeeds)
    (hbatch : ∀ b ∈ batchOf a, b.epoch.toNat ≤ m.batchEpoch.toNat + 1 ∧
      ∀ p ∈ b.stagingPaths, Unreferenced manifestPath m p) :
    Sound order manifestPath (appendFile d (deriveWalPath manifestPath) a.run.1) m c where
  manifest := by
    rw [appendFile_other (deriveWalPath_ne manifestPath).symm]
    exact h.manifest
  accepted := h.accepted
  lf := h.lf
  files uri p hp := by
    obtain ⟨hown, hdata⟩ := h.files uri p hp
    have hne : p ≠ deriveWalPath manifestPath := fun heq => hown (heq ▸ .wal)
    rw [appendFile_other hne]
    exact ⟨hown, hdata⟩
  wal := by
    obtain ⟨ops, hops⟩ := h.wal
    have hmem : ∀ b ∈ batchesOf (ops ++ [a]), b ∈ batchesOf ops ∨ b ∈ batchOf a := by
      intro b hb
      rw [batchesOf_append, List.mem_append] at hb
      rcases hb with hb | hb
      · exact Or.inl hb
      · right
        simpa [batchesOf] using hb
    refine ⟨ops ++ [a], ?_, ?_, fun b hb => ?_, fun b hb horphan => ?_⟩
    · intro x hx
      rcases List.mem_append.mp hx with hx | hx
      · exact hops.succeeds x hx
      · rw [List.mem_singleton.mp hx]
        exact ha
    · rw [appendFile_same, hops.bytes, walFile_append]
      simp [walFile]
    · rcases hmem b hb with hb | hb
      · exact hops.epochs b hb
      · exact (hbatch b hb).1
    · rcases hmem b hb with hb | hb
      · exact hops.orphans b hb (isOrphan_mono horphan (le_maxCommitted_append ops a))
      · exact (hbatch b hb).2

theorem Sound.writeFile (h : Sound order manifestPath d m c) {p : Path} (data : Bytes)
    (hp : Unreferenced manifestPath m p) (htmp : Unreferenced manifestPath m (tmpPath p)) :
    Sound order manifestPath (writeFileAtomicDisk p data d) m c := by
  have hother : ∀ q, (OwnFile manifestPath q ∨ ∃ uri, m.canonicalPaths.lookup uri = some q) →
      writeFileAtomicDisk p data d q = d q := by
    intro q hq
    apply writeFileAtomicDisk_other
    · rintro rfl
      rcases hq with hq | ⟨uri, hq⟩
      · exact hp.1 hq
      · exact hp.2 uri hq
    · rintro rfl
      rcases hq with hq | ⟨uri, hq⟩
      · exact htmp.1 hq
      · exact htmp.2 uri hq
  exact h.of_agree (hother _ (Or.inl .manifest)) (by rw [hother _ (Or.inl .wal)])
    fun uri p hp => hother p (Or.inr ⟨uri, hp⟩)

theorem Sound.rotate (h : Sound order manifestPath d m c) (epoch : UInt64) :
    Sound order manifestPath
      (walRotateActiveSegment d (deriveWalPath manifestPath) epoch).1 m c := by
  have hother : ∀ q, q ≠ deriveWalPath manifestPath →
      walBuildSegmentPath (deriveWalPath manifestPath) epoch ≠ some q →
      (walRotateActiveSegment d (deriveWalPath manifestPath) epoch).1 q = d q := fun q hq hseg =>
    walRotateActiveSegment_other hq hseg
  have hm := hother manifestPath (deriveWalPath_ne manifestPath).symm
    fun hseg => segment_ne_manifest hseg rfl
  have hfiles : ∀ uri p, m.canonicalPaths.lookup uri = some p →
      (walRotateActiveSegment d (deriveWalPath manifestPath) epoch).1 p = d p := by
    intro uri p hp
    have hown := (h.files uri p hp).1
    exact hother p (fun heq => hown (heq ▸ .wal)) fun hseg => hown (.segment epoch hseg)
  -- the active file is where it was, or gone
  have hactive : (walRotateActiveSegment d (deriveWalPath manifestPath) epoch).1
        (deriveWalPath manifestPath) = d (deriveWalPath manifestPath) ∨
      (walRotateActiveSegment d (deriveWalPath manifestPath) epoch).1
        (deriveWalPath manifestPath) = none := by
    unfold walRotateActiveSegment
    split
    · exact Or.inl rfl
    · split
      · exact Or.inl rfl
      · cases hseg : walBuildSegmentPath (deriveWalPath manifestPath) epoch with
        | none => exact Or.inl rfl
        | some seg =>
            right
            have hne := segment_ne_active hseg
            simp only
            cases hd : d (deriveWalPath manifestPath) with
            | none =>
                rw [Disk.rename_of_eq_none]
                · rw [Disk.remove_other hne.symm, hd]
                · rw [Disk.remove_other hne.symm, hd]
            | some f =>
                have hsrc : (d.remove seg) (deriveWalPath manifestPath) = some f := by
                  rw [Disk.remove_other hne.symm, hd]
                rw [Disk.rename_of_eq_some hsrc, Disk.write_other hne.symm, Disk.remove_same]
  rcases hactive with hsame | hgone
  · exact h.of_agree hm (by rw [hsame]) hfiles
  · refine ⟨by rw [hm]; exact h.manifest, h.accepted, h.lf, fun uri p hp => ?_,
      ⟨[], by simp, by rw [hgone]; rfl, by simp [batchesOf], by simp [batchesOf]⟩⟩
    rw [hfiles uri p hp]
    exact h.files uri p hp

theorem Sound.purge (h : Sound order manifestPath d m c) (manifestEpoch last : UInt64) :
    Sound order manifestPath
      (walPurgeOldSegmentsEx d (deriveWalPath manifestPath) manifestEpoch last).1 m c := by
  refine h.of_agree ?_ ?_ fun uri p hp => ?_
  · exact walPurgeOldSegmentsEx_other fun epoch hseg => segment_ne_manifest hseg rfl
  · rw [walPurgeOldSegmentsEx_other fun epoch hseg => segment_ne_active hseg rfl]
  · have hown := (h.files uri p hp).1
    exact walPurgeOldSegmentsEx_other fun epoch hseg => hown (.segment epoch hseg)

theorem walMaxCommittedOf_ge (fs : List Bytes) (maxC : UInt64)
    (h : (walMaxCommittedOf fs maxC).2 = false) :
    maxC.toNat ≤ (walMaxCommittedOf fs maxC).1.toNat ∧
      ∀ f ∈ fs, (walScanLastCommittedEpoch f).1.toNat ≤ (walMaxCommittedOf fs maxC).1.toNat := by
  induction fs generalizing maxC with
  | nil => simp [walMaxCommittedOf]
  | cons f fs ih =>
      rw [walMaxCommittedOf] at h ⊢
      by_cases hscan : (walScanLastCommittedEpoch f).2 = true
      · simp [hscan] at h
      · simp only [hscan, if_false, Bool.false_eq_true] at h ⊢
        obtain ⟨hmax, hrest⟩ := ih _ h
        have hstep : maxC.toNat ≤ (if maxC < (walScanLastCommittedEpoch f).1 then
              (walScanLastCommittedEpoch f).1 else maxC).toNat ∧
            (walScanLastCommittedEpoch f).1.toNat ≤
              (if maxC < (walScanLastCommittedEpoch f).1 then
                (walScanLastCommittedEpoch f).1 else maxC).toNat := by
          split
          · rename_i hlt
            rw [UInt64.lt_iff_toNat_lt] at hlt
            omega
          · rename_i hlt
            rw [UInt64.lt_iff_toNat_lt] at hlt
            omega
        refine ⟨by omega, fun g hg => ?_⟩
        rcases List.mem_cons.mp hg with rfl | hg
        · omega
        · exact hrest g hg

theorem Sound.recover (h : Sound order manifestPath d m c) :
    Sound order manifestPath
      (walRecoverUnfinished d (deriveWalPath manifestPath) m.batchEpoch).1 m c := by
  obtain ⟨ops, hops⟩ := h.wal
  unfold walRecoverUnfinished
  by_cases hscan :
      (walMaxCommittedAcrossSegments d (deriveWalPath manifestPath) m.batchEpoch).2 = true
  · simp only [hscan, if_true]
    exact h
  · rw [Bool.not_eq_true] at hscan
    simp only [hscan, Bool.false_eq_true, if_false]
    cases hd : d (deriveWalPath manifestPath) with
    | none => exact h
    | some f =>
        have hf : f = walFile ops := by
          have hbytes := hops.bytes
          rwa [hd] at hbytes
        have hge := (walMaxCommittedOf_ge _ 0 hscan).2 f
          (by simp [walScannedFiles, hd])
        have hlast : (walScanLastCommittedEpoch f).1 = maxCommitted ops := by
          rw [hf, scan_walFile hops.succeeds]
        have hremoved := (between_recoverScan_walFile hops.succeeds
          (walMaxCommittedAcrossSegments d (deriveWalPath manifestPath) m.batchEpoch).1
          m.batchEpoch).removed
        rw [← hf] at hremoved
        have hsafe : ∀ p ∈ (recoverScan (walMaxCommittedAcrossSegments d
            (deriveWalPath manifestPath) m.batchEpoch).1 m.batchEpoch f).removed,
            Unreferenced manifestPath m p := by
          intro p hp
          rw [hremoved, mem_flatMap_orphanPaths] at hp
          obtain ⟨b, hb, horphan, hpath, -⟩ := hp
          refine hops.orphans b hb (isOrphan_mono horphan ?_) p hpath
          rw [← hlast]
          exact hge
        have hkept : ∀ q, (OwnFile manifestPath q ∨
            ∃ uri, m.canonicalPaths.lookup uri = some q) →
            d.removeAll (recoverScan (walMaxCommittedAcrossSegments d
              (deriveWalPath manifestPath) m.batchEpoch).1 m.batchEpoch f).removed q = d q := by
          intro q hq
          apply Disk.removeAll_of_not_mem
          intro hmem
          rcases hq with hq | ⟨uri, hq⟩
          · exact (hsafe q hmem).1 hq
          · exact (hsafe q hmem).2 uri hq
        exact h.of_agree (hkept _ (Or.inl .manifest))
          (congrArg (Option.getD · []) (hkept _ (Or.inl .wal)))
          fun uri p hp => hkept p (Or.inr ⟨uri, hp⟩)

/-- **Opening a store** on a sound disk gives the recorded fields and a sound
disk. -/
theorem Sound.open (h : Sound order manifestPath d m c) :
    ∃ store, (storeOpen manifestPath d).1 = some store ∧ store.manifest = m ∧
      store.memoryOnly = false ∧ Sound order manifestPath (storeOpen manifestPath d).2 m c := by
  unfold storeOpen
  rw [h.load]
  exact ⟨_, rfl, rfl, rfl, h.recover.purge m.batchEpoch 0⟩

end

end BlessStar.Persistence.Proofs.StoreSound
