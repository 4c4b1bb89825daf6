import BlessStar.Persistence.Manifest

/-!
# Loading what was saved

The reader of the manifest recovers the recorded fields from the written text
line by line, as long as no URI and no path breaks a line.
-/

namespace BlessStar.Persistence.Proofs.ManifestRoundTrip

open Lib.ByteString Persistence
open Persistence.Crc32

structure LineSafe (m : Manifest) : Prop where
  uri_ne_nil : ∀ uri ∈ m.revisions, uri ≠ []
  uri_line : ∀ uri ∈ m.revisions, LF ∉ uri ∧ uri.length ≤ 8000
  path_line : ∀ uri p, m.canonicalPaths.lookup uri = some p → LF ∉ p ∧ p.length ≤ 8000
  keys : ∀ uri ∈ m.canonicalPaths, uri ∈ m.revisions

theorem LineSafe.empty : LineSafe {} where
  uri_ne_nil uri h := absurd h Finmap.notMem_empty
  uri_line uri h := absurd h Finmap.notMem_empty
  path_line uri p h := by simp at h
  keys uri h := absurd h Finmap.notMem_empty

theorem LineSafe.withEpoch {m : Manifest} (h : LineSafe m) (epoch : UInt64) :
    LineSafe { m with batchEpoch := epoch } :=
  ⟨h.uri_ne_nil, h.uri_line, h.path_line, h.keys⟩

theorem startsWith_append (s rest : Bytes) : startsWith s (s ++ rest) = true := by
  rw [startsWith, List.isPrefixOf_iff_prefix]
  exact List.prefix_append s rest

theorem not_startsWith {s line : Bytes} {b c : UInt8} (hs : s.head? = some b)
    (hline : line.head? = some c) (hne : b ≠ c) : startsWith s line = false := by
  rw [startsWith, Bool.eq_false_iff, ne_eq, List.isPrefixOf_iff_prefix]
  rintro ⟨rest, rfl⟩
  rw [List.head?_append, hs] at hline
  exact hne (Option.some.inj hline)

theorem not_skipped {line : Bytes} {c : UInt8} (h : line.head? = some c) (hc : c ≠ 35) :
    ¬(line = [] ∨ line.head? = some 35) := by
  rintro (rfl | h35)
  · cases h
  · rw [h] at h35
    exact hc (Option.some.inj h35)

theorem loadLine_comment {s : LoadState} {line : Bytes} (h : line.head? = some 35) :
    loadLine s line = s := by
  rw [loadLine, if_pos (Or.inr h)]

theorem loadLine_checksum (s : LoadState) (csum : UInt32) :
    loadLine s (ascii "manifest_checksum=" ++ numeral 16 csum.toNat) =
      { s with fileChecksum := csum, haveChecksum := true } := by
  have hhead : (ascii "manifest_checksum=" ++ numeral 16 csum.toNat).head? = some 109 := rfl
  have hvalue : strtoull 16 (numeral 16 csum.toNat) = csum.toUInt64 := by
    have h := strtoull_numeral (by decide) (le_refl 16) csum.toUInt64
    simpa using h
  unfold loadLine
  rw [if_neg (not_skipped hhead (by decide)), if_pos (startsWith_append _ _),
    List.drop_left' (by decide), hvalue]
  simp

theorem loadLine_epoch (s : LoadState) (epoch : UInt64) :
    loadLine s (ascii "batch_epoch=" ++ decimal epoch.toNat) =
      { s with
        bodyForCrc := s.bodyForCrc ++ unlines [ascii "batch_epoch=" ++ decimal epoch.toNat]
        manifest := { s.manifest with batchEpoch := epoch } } := by
  have hhead : (ascii "batch_epoch=" ++ decimal epoch.toNat).head? = some 98 := rfl
  have hvalue : strtoull 10 (decimal epoch.toNat) = epoch :=
    strtoull_numeral (by decide) (by decide) epoch
  unfold loadLine
  rw [if_neg (not_skipped hhead (by decide)),
    if_neg (by rw [not_startsWith rfl hhead (by decide)]; simp), if_pos (startsWith_append _ _),
    List.drop_left' (by decide), hvalue]
  simp [unlines]

theorem loadLine_uri (s : LoadState) {uri : Bytes} (hne : uri ≠ []) :
    loadLine s (ascii "[uri=" ++ uri ++ ascii "]") =
      { s with
        bodyForCrc := s.bodyForCrc ++ unlines [ascii "[uri=" ++ uri ++ ascii "]"]
        currentUri := uri } := by
  have hhead : (ascii "[uri=" ++ uri ++ ascii "]").head? = some 91 := rfl
  have hlen : (ascii "[uri=" ++ uri ++ ascii "]").length = uri.length + 6 := by
    simp [ascii]
  have hpos : 0 < uri.length := List.length_pos_iff.mpr hne
  have hlast : (ascii "[uri=" ++ uri ++ ascii "]").getLast? = some 93 := by
    rw [List.getLast?_append]
    rfl
  have hstart : startsWith (ascii "[uri=") (ascii "[uri=" ++ uri ++ ascii "]") = true := by
    rw [List.append_assoc]
    exact startsWith_append _ _
  unfold loadLine
  rw [if_neg (not_skipped hhead (by decide)),
    if_neg (by rw [not_startsWith rfl hhead (by decide)]; simp),
    if_neg (by rw [not_startsWith rfl hhead (by decide)]; simp),
    if_pos ⟨hstart, by omega, hlast⟩, hlen, List.append_assoc, List.drop_left' (by decide),
    List.take_left' (by omega)]
  simp [unlines]

theorem loadLine_revision {s : LoadState} (hs : s.currentUri ≠ []) (rev : UInt64) :
    loadLine s (ascii "revision=" ++ decimal rev.toNat) =
      { s with
        bodyForCrc := s.bodyForCrc ++ unlines [ascii "revision=" ++ decimal rev.toNat]
        manifest :=
          { s.manifest with revisions := s.manifest.revisions.insert s.currentUri rev } } := by
  have hhead : (ascii "revision=" ++ decimal rev.toNat).head? = some 114 := rfl
  have hvalue : strtoull 10 (decimal rev.toNat) = rev :=
    strtoull_numeral (by decide) (by decide) rev
  unfold loadLine
  rw [if_neg (not_skipped hhead (by decide)),
    if_neg (by rw [not_startsWith rfl hhead (by decide)]; simp),
    if_neg (by rw [not_startsWith rfl hhead (by decide)]; simp),
    if_neg (by rw [not_startsWith rfl hhead (by decide)]; simp),
    if_pos ⟨hs, startsWith_append _ _⟩, List.drop_left' (by decide), hvalue]
  simp [unlines]

theorem loadLine_path {s : LoadState} (hs : s.currentUri ≠ []) (p : Path) :
    loadLine s (ascii "path=" ++ p) =
      { s with
        bodyForCrc := s.bodyForCrc ++ unlines [ascii "path=" ++ p]
        manifest :=
          { s.manifest with
            canonicalPaths := s.manifest.canonicalPaths.insert s.currentUri p } } := by
  have hhead : (ascii "path=" ++ p).head? = some 112 := rfl
  unfold loadLine
  rw [if_neg (not_skipped hhead (by decide)),
    if_neg (by rw [not_startsWith rfl hhead (by decide)]; simp),
    if_neg (by rw [not_startsWith rfl hhead (by decide)]; simp),
    if_neg (by rw [not_startsWith rfl hhead (by decide)]; simp),
    if_neg (by rw [not_startsWith rfl hhead (by decide)]; simp),
    if_pos ⟨hs, startsWith_append _ _⟩, List.drop_left' (by decide)]
  simp [unlines]

def loadEntry (paths : PathMap) (s : LoadState) (kv : Bytes × UInt64) : LoadState :=
  { s with
    bodyForCrc := s.bodyForCrc ++ unlines (manifestEntryLines paths kv)
    currentUri := kv.1
    manifest :=
      { s.manifest with
        revisions := s.manifest.revisions.insert kv.1 kv.2
        canonicalPaths :=
          match paths.lookup kv.1 with
          | some p => s.manifest.canonicalPaths.insert kv.1 p
          | none => s.manifest.canonicalPaths } }

theorem loadLines_cons {line : Bytes} (h : line.length ≤ maxManifestLine) (lines : List Bytes)
    (s : LoadState) : loadLines (line :: lines) s = loadLines lines (loadLine s line) := by
  rw [loadLines, if_neg (by omega)]

theorem length_decimal_line {head : Bytes} (hhead : head.length ≤ 20) (n : UInt64) :
    (head ++ decimal n.toNat).length ≤ maxManifestLine := by
  have hdec := length_decimal_le n
  rw [List.length_append, maxManifestLine]
  omega

theorem loadLines_entry {m : Manifest} (hm : LineSafe m) {kv : Bytes × UInt64}
    (hkv : kv.1 ∈ m.revisions) (rest : List Bytes) (s : LoadState) :
    loadLines (manifestEntryLines m.canonicalPaths kv ++ rest) s =
      loadLines rest (loadEntry m.canonicalPaths s kv) := by
  have hne := hm.uri_ne_nil kv.1 hkv
  have hline := (hm.uri_line kv.1 hkv).2
  have huri : (ascii "[uri=" ++ kv.1 ++ ascii "]").length ≤ maxManifestLine := by
    simp only [List.length_append, ascii, List.length_map, maxManifestLine]
    simp
    omega
  unfold manifestEntryLines loadEntry
  simp only [List.cons_append, List.nil_append]
  rw [loadLines_cons huri, loadLine_uri s hne, loadLines_cons (length_decimal_line (by decide) _),
    loadLine_revision (by exact hne)]
  cases hp : m.canonicalPaths.lookup kv.1 with
  | none => simp [manifestEntryLines, hp, unlines]
  | some p =>
      have hpath : (ascii "path=" ++ p).length ≤ maxManifestLine := by
        have hplen := (hm.path_line kv.1 p hp).2
        simp only [List.length_append, ascii, List.length_map, maxManifestLine]
        simp
        omega
      simp only [List.cons_append, List.nil_append]
      rw [loadLines_cons hpath, loadLine_path (by exact hne)]
      simp [manifestEntryLines, hp, unlines]

theorem loadLines_entries {m : Manifest} (hm : LineSafe m) (kvs : List (Bytes × UInt64))
    (hkvs : ∀ kv ∈ kvs, kv.1 ∈ m.revisions) (s : LoadState) :
    loadLines (kvs.flatMap (manifestEntryLines m.canonicalPaths)) s =
      (.ok, kvs.foldl (loadEntry m.canonicalPaths) s) := by
  induction kvs generalizing s with
  | nil => rfl
  | cons kv kvs ih =>
      rw [List.flatMap_cons, loadLines_entry hm (hkvs kv (by simp)),
        ih fun x hx => hkvs x (by simp [hx])]
      rfl

theorem foldl_loadEntry_keeps (paths : PathMap) (kvs : List (Bytes × UInt64)) (s : LoadState) :
    (kvs.foldl (loadEntry paths) s).bodyForCrc =
        s.bodyForCrc ++ unlines (kvs.flatMap (manifestEntryLines paths)) ∧
      (kvs.foldl (loadEntry paths) s).fileChecksum = s.fileChecksum ∧
      (kvs.foldl (loadEntry paths) s).haveChecksum = s.haveChecksum ∧
      (kvs.foldl (loadEntry paths) s).manifest.batchEpoch = s.manifest.batchEpoch := by
  induction kvs generalizing s with
  | nil => simp
  | cons kv kvs ih =>
      obtain ⟨hbody, hsum, hhave, hepoch⟩ := ih (loadEntry paths s kv)
      rw [List.foldl_cons]
      refine ⟨?_, hsum, hhave, hepoch⟩
      rw [hbody, List.flatMap_cons, unlines_append, ← List.append_assoc]
      rfl

theorem lookup_revisions_foldl_loadEntry (paths : PathMap) {kvs : List (Bytes × UInt64)}
    (hnodup : (kvs.map Prod.fst).Nodup) (s : LoadState) (uri : Bytes) :
    (∀ rev, (uri, rev) ∈ kvs →
      (kvs.foldl (loadEntry paths) s).manifest.revisions.lookup uri = some rev) ∧
    (uri ∉ kvs.map Prod.fst →
      (kvs.foldl (loadEntry paths) s).manifest.revisions.lookup uri =
        s.manifest.revisions.lookup uri) := by
  induction kvs generalizing s with
  | nil => simp
  | cons kv kvs ih =>
      rw [List.map_cons, List.nodup_cons] at hnodup
      obtain ⟨ihMem, ihNot⟩ := ih hnodup.2 (loadEntry paths s kv)
      rw [List.foldl_cons]
      refine ⟨fun rev hmem => ?_, fun hnot => ?_⟩
      · rcases List.mem_cons.mp hmem with rfl | hmem
        · rw [ihNot hnodup.1]
          exact Finmap.lookup_insert _
        · exact ihMem rev hmem
      · rw [List.map_cons, List.mem_cons, not_or] at hnot
        rw [ihNot hnot.2]
        exact Finmap.lookup_insert_of_ne _ hnot.1

theorem lookup_paths_foldl_loadEntry (paths : PathMap) {kvs : List (Bytes × UInt64)}
    (hnodup : (kvs.map Prod.fst).Nodup) (s : LoadState) (uri : Bytes) :
    (uri ∈ kvs.map Prod.fst → s.manifest.canonicalPaths.lookup uri = none →
      (kvs.foldl (loadEntry paths) s).manifest.canonicalPaths.lookup uri = paths.lookup uri) ∧
    (uri ∉ kvs.map Prod.fst →
      (kvs.foldl (loadEntry paths) s).manifest.canonicalPaths.lookup uri =
        s.manifest.canonicalPaths.lookup uri) := by
  have hother : ∀ (s : LoadState) (kv : Bytes × UInt64), uri ≠ kv.1 →
      (loadEntry paths s kv).manifest.canonicalPaths.lookup uri =
        s.manifest.canonicalPaths.lookup uri := by
    intro s kv hne
    unfold loadEntry
    cases paths.lookup kv.1 with
    | none => rfl
    | some p => exact Finmap.lookup_insert_of_ne _ hne
  induction kvs generalizing s with
  | nil => simp
  | cons kv kvs ih =>
      rw [List.map_cons, List.nodup_cons] at hnodup
      obtain ⟨ihMem, ihNot⟩ := ih hnodup.2 (loadEntry paths s kv)
      rw [List.foldl_cons, List.map_cons, List.mem_cons, not_or]
      refine ⟨fun hmem hnone => ?_, fun hnot => ?_⟩
      · by_cases hhere : uri = kv.1
        · rw [ihNot (hhere ▸ hnodup.1)]
          unfold loadEntry
          rw [← hhere]
          cases hp : paths.lookup uri with
          | none => exact hnone
          | some p => exact Finmap.lookup_insert _
        · exact ihMem (hmem.resolve_left hhere) (by rw [hother s kv hhere, hnone])
      · rw [ihNot hnot.2, hother s kv hnot.1]

theorem not_lf_of_isDigit {b : UInt8} {base : Nat} (hbase : base ≤ 16) (h : IsDigit base b) :
    b ≠ LF := h.ne_of_toNat hbase (by decide)

theorem lf_not_mem_numeral {base : Nat} (h1 : 1 < base) (hbase : base ≤ 16) (n : Nat) :
    LF ∉ numeral base n := fun h =>
  not_lf_of_isDigit hbase (isDigit_of_mem_numeral h1 h) rfl

theorem lf_not_mem_manifestEntryLines {m : Manifest} (hm : LineSafe m) {kv : Bytes × UInt64}
    (hkv : kv.1 ∈ m.revisions) : ∀ l ∈ manifestEntryLines m.canonicalPaths kv, LF ∉ l := by
  have huri := (hm.uri_line kv.1 hkv).1
  have hrev : LF ∉ decimal kv.2.toNat := lf_not_mem_numeral (by decide) (by decide) _
  have htext : LF ∉ ascii "[uri=" ∧ LF ∉ ascii "]" ∧ LF ∉ ascii "revision=" ∧
      LF ∉ ascii "path=" := by decide
  intro l hl
  unfold manifestEntryLines at hl
  cases hp : m.canonicalPaths.lookup kv.1 with
  | none =>
      rw [hp] at hl
      simp only [List.append_nil, List.mem_cons, List.not_mem_nil, or_false] at hl
      rcases hl with rfl | rfl <;> simp [huri, hrev, htext]
  | some p =>
      have hpath := (hm.path_line kv.1 p hp).1
      rw [hp] at hl
      simp only [List.cons_append, List.nil_append, List.mem_cons, List.not_mem_nil,
        or_false] at hl
      rcases hl with rfl | rfl | rfl <;> simp [huri, hrev, hpath, htext]

theorem fst_mem_of_mem_entries {order : IterOrder} {m : RevisionMap} {kv : Bytes × UInt64}
    (h : kv ∈ order.entries m) : kv.1 ∈ m := by
  rw [Finmap.mem_iff]
  exact ⟨kv.2, (order.mem_entries m kv.1 kv.2).mp h⟩

theorem mem_keys_entries {order : IterOrder} {m : RevisionMap} {uri : Bytes} :
    uri ∈ (order.entries m).map Prod.fst ↔ uri ∈ m := by
  rw [List.mem_map, Finmap.mem_iff]
  constructor
  · rintro ⟨kv, hkv, rfl⟩
    exact ⟨kv.2, (order.mem_entries m kv.1 kv.2).mp hkv⟩
  · rintro ⟨rev, hrev⟩
    exact ⟨(uri, rev), (order.mem_entries m uri rev).mpr hrev, rfl⟩

theorem getLines_manifestText {order : IterOrder} {m : Manifest} (hm : LineSafe m) :
    getLines (manifestText order m) =
      ascii "# BlessStar manifest v1" ::
        (ascii "manifest_checksum=" ++
          numeral 16 (crc32 (unlines (manifestBodyLines order m))).toNat) ::
        manifestBodyLines order m := by
  have hsum : LF ∉ numeral 16 (crc32 (unlines (manifestBodyLines order m))).toNat :=
    lf_not_mem_numeral (by decide) (le_refl 16) _
  have hepoch : LF ∉ decimal m.batchEpoch.toNat := lf_not_mem_numeral (by decide) (by decide) _
  have htext : LF ∉ ascii "# BlessStar manifest v1" ∧ LF ∉ ascii "manifest_checksum=" ∧
      LF ∉ ascii "batch_epoch=" := by decide
  rw [manifestText, ← unlines_append, getLines_unlines]
  · rfl
  · intro l hl
    simp only [manifestBodyLines, List.cons_append, List.nil_append, List.mem_cons,
      List.mem_flatMap] at hl
    rcases hl with rfl | rfl | rfl | ⟨kv, hkv, hl⟩
    · exact htext.1
    · rw [List.mem_append]
      exact not_or.mpr ⟨htext.2.1, hsum⟩
    · rw [List.mem_append]
      exact not_or.mpr ⟨htext.2.2, hepoch⟩
    · exact lf_not_mem_manifestEntryLines hm (fst_mem_of_mem_entries hkv) l hl

theorem foldl_loadEntry_entries {order : IterOrder} {m : Manifest} (hm : LineSafe m)
    {s : LoadState} (hepoch : s.manifest.batchEpoch = m.batchEpoch)
    (hrevs : s.manifest.revisions = ∅) (hpaths : s.manifest.canonicalPaths = ∅) :
    ((order.entries m.revisions).foldl (loadEntry m.canonicalPaths) s).manifest = m := by
  set final := (order.entries m.revisions).foldl (loadEntry m.canonicalPaths) s with hfinal
  have hnodup := order.nodup_keys m.revisions
  obtain ⟨-, -, -, hkept⟩ :=
    foldl_loadEntry_keeps m.canonicalPaths (order.entries m.revisions) s
  have hlookup : final.manifest.revisions = m.revisions := by
    apply Finmap.ext_lookup
    intro uri
    obtain ⟨hmem, hnot⟩ := lookup_revisions_foldl_loadEntry m.canonicalPaths hnodup s uri
    cases hrev : m.revisions.lookup uri with
    | none =>
        rw [hfinal, hnot, hrevs, Finmap.lookup_empty]
        rw [mem_keys_entries, ← Finmap.lookup_eq_none, hrev]
    | some rev => exact hmem rev ((order.mem_entries _ uri rev).mpr hrev)
  have hcanonical : final.manifest.canonicalPaths = m.canonicalPaths := by
    apply Finmap.ext_lookup
    intro uri
    obtain ⟨hmem, hnot⟩ := lookup_paths_foldl_loadEntry m.canonicalPaths hnodup s uri
    have hempty : s.manifest.canonicalPaths.lookup uri = none := by
      rw [hpaths, Finmap.lookup_empty]
    by_cases huri : uri ∈ m.revisions
    · exact hmem (mem_keys_entries.mpr huri) hempty
    · rw [hfinal, hnot (mt mem_keys_entries.mp huri), hempty]
      exact (Finmap.lookup_eq_none.mpr fun h => huri (hm.keys uri h)).symm
  calc
    final.manifest =
        ⟨final.manifest.batchEpoch, final.manifest.revisions, final.manifest.canonicalPaths⟩ := rfl
    _ = m := by rw [hlookup, hcanonical, hkept, hepoch]

theorem length_checksumLine (csum : UInt32) :
    (ascii "manifest_checksum=" ++ numeral 16 csum.toNat).length ≤ maxManifestLine := by
  have hdigits : (numeral 16 csum.toNat).length ≤ 8 := by
    unfold numeral
    split
    · simp
    · rw [List.length_map, List.length_reverse, Nat.digits_length_le_iff (by omega)]
      have hlt := csum.toNat_lt
      omega
  have hname : (ascii "manifest_checksum=").length = 18 := by decide
  rw [List.length_append, maxManifestLine]
  omega

theorem loadLines_manifestText (order : IterOrder) {m : Manifest} (hm : LineSafe m)
    (m₀ : Manifest) :
    ∃ s, loadLines (getLines (manifestText order m))
        { manifest := { m₀ with revisions := ∅, canonicalPaths := ∅ } } = (.ok, s) ∧
      s.manifest = m ∧ crc32 s.bodyForCrc = s.fileChecksum := by
  have hkeys : ∀ kv ∈ order.entries m.revisions, kv.1 ∈ m.revisions := fun kv hkv =>
    fst_mem_of_mem_entries hkv
  rw [getLines_manifestText hm, loadLines_cons (by decide), loadLine_comment rfl,
    loadLines_cons (length_checksumLine _), loadLine_checksum, manifestBodyLines,
    loadLines_cons (length_decimal_line (by decide) _), loadLine_epoch,
    loadLines_entries hm _ hkeys]
  refine ⟨_, rfl, foldl_loadEntry_entries hm rfl rfl rfl, ?_⟩
  obtain ⟨hbody, hsum, -, -⟩ := foldl_loadEntry_keeps m.canonicalPaths
    (order.entries m.revisions) _
  rw [hbody, hsum, List.nil_append, ← unlines_append]
  rfl

/-- **A line-safe manifest is read back**, with its checksum accepted, into any
store. -/
theorem loadManifestFromPath_manifestText {order : IterOrder} {m : Manifest} (hm : LineSafe m)
    {d : AttachDisk} {path : Path} (hd : d path = some (manifestText order m)) (verify : Bool)
    (m₀ : Manifest) : loadManifestFromPath d path verify m₀ = (.ok, m) := by
  obtain ⟨s, hread, hmanifest, hcrc⟩ := loadLines_manifestText order hm m₀
  unfold loadManifestFromPath
  rw [hd]
  simp only [hread, hmanifest, hcrc, ne_eq, not_true, and_false, if_false]

theorem loadManifestFileSync_manifestText {order : IterOrder} {m : Manifest} (hm : LineSafe m)
    {d : AttachDisk} {path : Path} (hd : d path = some (manifestText order m)) (m₀ : Manifest) :
    loadManifestFileSync d path m₀ = (.ok, m, d) := by
  unfold loadManifestFileSync
  rw [if_neg (by simp [hd])]
  simp only [loadManifestFromPath_manifestText hm hd, true_or, if_true]

structure NoLineFeed (s : LoadState) : Prop where
  currentUri : LF ∉ s.currentUri
  revisions : ∀ uri ∈ s.manifest.revisions, LF ∉ uri

theorem NoLineFeed.loadLine {s : LoadState} (h : NoLineFeed s) {line : Bytes} (hline : LF ∉ line) :
    NoLineFeed (loadLine s line) := by
  unfold BlessStar.Persistence.loadLine
  split
  · exact h
  · split
    · exact ⟨h.currentUri, h.revisions⟩
    · split
      · exact ⟨h.currentUri, h.revisions⟩
      · split
        · exact ⟨fun hmem => hline (List.mem_of_mem_drop (List.mem_of_mem_take hmem)), h.revisions⟩
        · split
          · refine ⟨h.currentUri, fun uri huri => ?_⟩
            rcases Finmap.mem_insert.mp huri with rfl | huri
            · exact h.currentUri
            · exact h.revisions uri huri
          · split
            · exact ⟨h.currentUri, h.revisions⟩
            · exact h

theorem NoLineFeed.loadLines {lines : List Bytes} (hlines : ∀ l ∈ lines, LF ∉ l) {s : LoadState}
    (h : NoLineFeed s) : NoLineFeed (loadLines lines s).2 := by
  induction lines generalizing s with
  | nil => exact h
  | cons l lines ih =>
      rw [BlessStar.Persistence.loadLines]
      split
      · exact h
      · exact ih (fun x hx => hlines x (by simp [hx])) (h.loadLine (hlines l (by simp)))

theorem lf_not_mem_of_loadManifestFromPath {d : AttachDisk} {path : Path} {verify : Bool}
    {m₀ m : Manifest} (h : loadManifestFromPath d path verify m₀ = (.ok, m)) :
    ∀ uri ∈ m.revisions, LF ∉ uri := by
  unfold loadManifestFromPath at h
  cases hd : d path with
  | none => simp [hd] at h
  | some f =>
      rw [hd] at h
      have hclean : NoLineFeed (BlessStar.Persistence.loadLines (getLines f)
          { manifest := { m₀ with revisions := ∅, canonicalPaths := ∅ } }).2 := by
        apply NoLineFeed.loadLines fun l hl => not_mem_of_mem_getLines hl
        exact ⟨by simp, fun uri huri => absurd huri Finmap.notMem_empty⟩
      simp only at h
      split at h
      · rename_i hbad
        obtain ⟨hok, -⟩ := Prod.mk.inj h
        exact absurd hok hbad
      · split at h
        · cases h
        · obtain ⟨-, rfl⟩ := Prod.mk.inj h
          exact hclean.revisions

end BlessStar.Persistence.Proofs.ManifestRoundTrip
