import BlessStar.Sdk.CommitBatch

/-!
# No lost update between editor windows

The counter sees a commit between the check of another and its end, not one
between a read and the check.  Where every call finds the version that its
window read, and nobody reads while a commit is on its way, no update is lost.
-/

namespace BlessStar.Sdk.Proofs.EditorWindows

open Lib.ByteString Lib.Transition EditorState

variable {σ : Type} {commit : List (Bytes × Bytes) → σ → ReportStatus × σ} {s s' : EditorState σ}
  {d : ConfigDeclareState} {log : List WindowMark} {window : Nat}

/-! ## The counter -/

theorem check_passed {expected : UInt64} (h : (d.commitCheckVersion expected).1 = 0) :
    d.initialized = true ∧ d.versionCounter = expected ∧
      (d.commitCheckVersion expected).2 = { d with versionCounter := expected + 1 } := by
  have hminus : ¬(-1 : Int) = 0 := by decide
  unfold ConfigDeclareState.commitCheckVersion at h ⊢
  by_cases hinit : d.initialized = false
  · rw [if_pos hinit] at h
    exact absurd h hminus
  · rw [if_neg hinit] at h ⊢
    by_cases heq : d.versionCounter = expected
    · rw [if_pos heq]
      exact ⟨Bool.eq_true_of_not_eq_false hinit, heq, rfl⟩
    · rw [if_neg heq] at h
      exact absurd h hminus

theorem check_refused {expected : UInt64} (h : (d.commitCheckVersion expected).1 ≠ 0) :
    (d.commitCheckVersion expected).2 = d := by
  unfold ConfigDeclareState.commitCheckVersion at h ⊢
  by_cases hinit : d.initialized = false
  · rw [if_pos hinit]
  · rw [if_neg hinit] at h ⊢
    by_cases heq : d.versionCounter = expected
    · rw [if_pos heq] at h
      exact absurd rfl h
    · rw [if_neg heq]

theorem toNat_next {v : UInt64} (h : v.toNat + 1 < 2 ^ 64) : (v + 1).toNat = v.toNat + 1 := by
  rw [UInt64.toNat_add]
  exact Nat.mod_eq_of_lt h

/-! ## Marks -/

theorem sinceRead_append (window : Nat) (log : List WindowMark) (m : WindowMark) :
    sinceRead window (log ++ [m]) =
      if m = .read window then [] else m :: sinceRead window log := by
  unfold sinceRead
  rw [List.reverse_append, List.reverse_singleton, List.singleton_append, List.takeWhile_cons]
  by_cases hm : m = .read window <;> simp [hm]

theorem upToDate_read (window : Nat) (log : List WindowMark) :
    UpToDate window (log ++ [.read window]) := by
  intro other based _ hmem
  rw [sinceRead_append, if_pos rfl] at hmem
  exact absurd hmem List.not_mem_nil

theorem upToDate_append (h : UpToDate window log) {m : WindowMark}
    (hm : ∀ other based, other ≠ window → m ≠ .reported other based .success) :
    UpToDate window (log ++ [m]) := by
  intro other based hother hmem
  rw [sinceRead_append] at hmem
  split at hmem
  · exact absurd hmem List.not_mem_nil
  · rcases List.mem_cons.mp hmem with heq | hmem
    · exact hm other based hother heq.symm
    · exact h other based hother hmem

theorem noLostUpdate_append (h : NoLostUpdate log) {m : WindowMark}
    (hm : ∀ w b st, m ≠ .reported w b st) : NoLostUpdate (log ++ [m]) := by
  refine ⟨fun based => ?_, guarded_append_singleton.mpr ⟨h.upToDate, ?_⟩⟩
  · have hnot : WindowMark.isReportOn based m = false := by
      cases m with
      | reported w b st => exact absurd rfl (hm w b st)
      | read w => rfl
      | conflict w => rfl
    rw [List.countP_append, List.countP_singleton, hnot]
    exact h.once based
  · cases m with
    | reported w b st => exact absurd rfl (hm w b st)
    | read w => trivial
    | conflict w => trivial

theorem noLostUpdate_report (h : NoLostUpdate log) {based : UInt64} {status : ReportStatus}
    (hnew : ∀ w st, .reported w based st ∉ log) (hdate : UpToDate window log) :
    NoLostUpdate (log ++ [.reported window based status]) := by
  refine ⟨fun b => ?_, guarded_append_singleton.mpr ⟨h.upToDate, hdate⟩⟩
  rw [List.countP_append, List.countP_singleton]
  by_cases hb : based = b
  · subst hb
    have hzero : log.countP (WindowMark.isReportOn based) = 0 := by
      rw [List.countP_eq_zero]
      intro m hm hon
      cases m with
      | reported w b st =>
          obtain rfl : b = based := of_decide_eq_true hon
          exact hnew w st hm
      | read w => exact absurd hon (by simp [WindowMark.isReportOn])
      | conflict w => exact absurd hon (by simp [WindowMark.isReportOn])
    rw [hzero]
    split <;> omega
  · have hnot : WindowMark.isReportOn b (.reported window based status) = false :=
      decide_eq_false hb
    rw [hnot]
    exact h.once b

/-! ## What the steps keep -/

def Passing (s : EditorState σ) (window : Nat) : Prop :=
  ∃ entriesJson, (s.windows window).call = some (.passed entriesJson)

structure Kept (s : EditorState σ) : Prop where
  initial : s.declare.initialized = false → s.declare.versionCounter = 0
  reported : ∀ w b st, .reported w b st ∈ s.log → b.toNat < s.declare.versionCounter.toNat
  held : ∀ w b c, (s.windows w).read = some (b, c) → b.toNat ≤ s.declare.versionCounter.toNat
  fresh : ∀ w c, (s.windows w).read = some (s.declare.versionCounter, c) →
    (∀ w', ¬Passing s w') ∧ UpToDate w s.log
  loaded : ∀ w e expected, (s.windows w).call = some (.loaded e expected) →
    ∃ c, (s.windows w).read = some (expected, c)
  passing : ∀ w, Passing s w → ∃ b c, (s.windows w).read = some (b, c) ∧
    b.toNat < s.declare.versionCounter.toNat ∧ (∀ w' st, .reported w' b st ∉ s.log) ∧
      UpToDate w s.log
  single : ∀ w w', Passing s w → Passing s w' → w = w'
  noLost : NoLostUpdate s.log

theorem Kept.getVersion_eq (h : Kept s) : s.declare.getVersion = s.declare.versionCounter := by
  unfold ConfigDeclareState.getVersion
  cases hinit : s.declare.initialized with
  | true => rfl
  | false => exact (h.initial hinit).symm

theorem Kept.ensureInit (h : Kept s) : Kept { s with declare := s.declare.ensureInit } :=
  ⟨fun hinit => absurd hinit (by simp [ConfigDeclareState.ensureInit]), h.reported, h.held,
    h.fresh, h.loaded, h.passing, h.single, h.noLost⟩

theorem Kept.raise (h : Kept s) (hinit : s.declare.initialized = true)
    (hnext : s.declare.versionCounter.toNat + 1 < 2 ^ 64) :
    Kept { s with declare :=
      { s.declare with versionCounter := s.declare.versionCounter + 1 } } := by
  have hnat := toNat_next hnext
  refine ⟨fun hfalse => ?_, fun w b st hmem => ?_, fun w b c hread => ?_, fun w c hread => ?_,
    h.loaded, fun w hw => ?_, h.single, h.noLost⟩
  · rw [hinit] at hfalse
    exact absurd hfalse (by decide)
  · have hold := h.reported w b st hmem
    show b.toNat < (s.declare.versionCounter + 1).toNat
    omega
  · have hold := h.held w b c hread
    show b.toNat ≤ (s.declare.versionCounter + 1).toNat
    omega
  · have hold := h.held w _ c hread
    rw [hnat] at hold
    omega
  · obtain ⟨b, c, hread, hlt, hnew, hdate⟩ := h.passing w hw
    refine ⟨b, c, hread, ?_, hnew, hdate⟩
    show b.toNat < (s.declare.versionCounter + 1).toNat
    omega

theorem Kept.setCall (h : Kept s) (window : Nat) (call : Option CommitCallAt)
    (hpassed : ∀ e, call ≠ some (.passed e))
    (hloaded : ∀ e expected, call = some (.loaded e expected) →
      ∃ c, (s.windows window).read = some (expected, c)) :
    Kept (s.setWindow window ⟨(s.windows window).read, call⟩) := by
  have hread : ∀ w, ((s.setWindow window ⟨(s.windows window).read, call⟩).windows w).read =
      (s.windows w).read := by
    intro w
    by_cases hw : w = window
    · subst hw
      simp [setWindow]
    · simp [setWindow, Function.update_of_ne hw]
  have hpassing : ∀ w, Passing (s.setWindow window ⟨(s.windows window).read, call⟩) w →
      Passing s w := by
    rintro w ⟨e, he⟩
    by_cases hw : w = window
    · subst hw
      simp only [setWindow, Function.update_self] at he
      exact absurd he (hpassed e)
    · simp only [setWindow, Function.update_of_ne hw] at he
      exact ⟨e, he⟩
  refine ⟨h.initial, h.reported, fun w b c hw => h.held w b c (hread w ▸ hw),
    fun w c hw => ?_, fun w e expected hw => ?_, fun w hw => ?_,
    fun w w' hw hw' => h.single w w' (hpassing w hw) (hpassing w' hw'), h.noLost⟩
  · obtain ⟨hnone, hdate⟩ := h.fresh w c (hread w ▸ hw)
    exact ⟨fun w' hw' => hnone w' (hpassing w' hw'), hdate⟩
  · rw [hread]
    by_cases hwin : w = window
    · subst hwin
      simp only [setWindow, Function.update_self] at hw
      exact hloaded e expected hw
    · simp only [setWindow, Function.update_of_ne hwin] at hw
      exact h.loaded w e expected hw
  · rw [hread]
    exact h.passing w (hpassing w hw)

theorem Kept.conflict (h : Kept s) (window : Nat) : Kept (s.mark (.conflict window)) := by
  have hold : ∀ w b st, .reported w b st ∈ s.log ++ [.conflict window] →
      .reported w b st ∈ s.log := by
    intro w b st hmem
    simpa using hmem
  refine ⟨h.initial, fun w b st hmem => h.reported w b st (hold w b st hmem), h.held,
    fun w c hread => ?_, h.loaded, fun w hw => ?_, h.single, noLostUpdate_append h.noLost (by simp)⟩
  · obtain ⟨hnone, hdate⟩ := h.fresh w c hread
    exact ⟨hnone, upToDate_append hdate (by simp)⟩
  · obtain ⟨b, c, hread, hlt, hnew, hdate⟩ := h.passing w hw
    exact ⟨b, c, hread, hlt, fun w' st hmem => hnew w' st (hold w' b st hmem),
      upToDate_append hdate (by simp)⟩

theorem Kept.read (h : Kept s) (hnone : ∀ w, ¬Passing s w) :
    Kept ((s.setWindow window { read := some (s.declare.versionCounter, s.config) }).mark
      (.read window)) := by
  have hpassing : ∀ w, ¬Passing ((s.setWindow window
      { read := some (s.declare.versionCounter, s.config) }).mark (.read window)) w := by
    rintro w ⟨e, he⟩
    by_cases hw : w = window
    · subst hw
      simp [mark, setWindow] at he
    · simp only [mark, setWindow, Function.update_of_ne hw] at he
      exact hnone w ⟨e, he⟩
  refine ⟨h.initial, fun w b st hmem => h.reported w b st (by simpa [mark, setWindow] using hmem),
    fun w b c hw => ?_, fun w c hw => ⟨hpassing, ?_⟩, fun w e expected hw => ?_,
    fun w hw => absurd hw (hpassing w), fun w w' hw => absurd hw (hpassing w),
    noLostUpdate_append h.noLost (by simp)⟩
  · by_cases hwin : w = window
    · subst hwin
      simp only [mark, setWindow, Function.update_self, Option.some.injEq, Prod.mk.injEq] at hw
      rw [← hw.1]
      exact le_refl _
    · simp only [mark, setWindow, Function.update_of_ne hwin] at hw
      exact h.held w b c hw
  · by_cases hwin : w = window
    · subst hwin
      exact upToDate_read w s.log
    · simp only [mark, setWindow, Function.update_of_ne hwin] at hw
      exact upToDate_append (h.fresh w c hw).2 (by simp)
  · by_cases hwin : w = window
    · subst hwin
      simp [mark, setWindow] at hw
    · simp only [mark, setWindow, Function.update_of_ne hwin] at hw ⊢
      exact h.loaded w e expected hw

theorem Kept.exchange (h : Kept s) (hinit : s.declare.initialized = true)
    (hnext : s.declare.versionCounter.toNat + 1 < 2 ^ 64) {c : σ}
    (hread : (s.windows window).read = some (s.declare.versionCounter, c)) (json : Bytes) :
    Kept ({ s with declare :=
      { s.declare with versionCounter := s.declare.versionCounter + 1 } }.setWindow window
        ⟨(s.windows window).read, some (.passed json)⟩) := by
  have hraised := h.raise hinit hnext
  obtain ⟨hnone, hdate⟩ := h.fresh window c hread
  have hnat := toNat_next hnext
  generalize hs' : { s with declare :=
    { s.declare with versionCounter := s.declare.versionCounter + 1 } } = s' at hraised ⊢
  have hwindows : s'.windows = s.windows := by rw [← hs']
  have hlog : s'.log = s.log := by rw [← hs']
  have hversion : s'.declare.versionCounter.toNat = s.declare.versionCounter.toNat + 1 := by
    rw [← hs']
    exact hnat
  rw [← hwindows] at hread ⊢
  have hreads : ∀ w, ((s'.setWindow window ⟨(s'.windows window).read,
      some (.passed json)⟩).windows w).read = (s'.windows w).read := by
    intro w
    by_cases hw : w = window
    · subst hw
      simp [setWindow]
    · simp [setWindow, Function.update_of_ne hw]
  have hpassing : ∀ w, Passing (s'.setWindow window ⟨(s'.windows window).read,
      some (.passed json)⟩) w → w = window := by
    rintro w ⟨e, he⟩
    by_contra hw
    simp only [setWindow, Function.update_of_ne hw] at he
    exact hnone w ⟨e, hwindows ▸ he⟩
  refine ⟨hraised.initial, hraised.reported, fun w b c hw => hraised.held w b c (hreads w ▸ hw),
    fun w c hw => ?_, fun w e expected hw => ?_, fun w hw => ?_,
    fun w w' hw hw' => (hpassing w hw).trans (hpassing w' hw').symm, hraised.noLost⟩
  · -- no window has read the version that comes after the check
    have hold := h.held w s'.declare.versionCounter c (hwindows ▸ hreads w ▸ hw)
    omega
  · rw [hreads]
    by_cases hwin : w = window
    · subst hwin
      simp [setWindow] at hw
    · simp only [setWindow, Function.update_of_ne hwin] at hw
      exact hraised.loaded w e expected hw
  · rw [hreads, hpassing w hw]
    refine ⟨s.declare.versionCounter, c, hread, ?_, fun w' st hmem => ?_, ?_⟩
    · show s.declare.versionCounter.toNat < s'.declare.versionCounter.toNat
      omega
    · have hlt := h.reported w' _ st (hlog ▸ hmem)
      omega
    · show UpToDate window s'.log
      rw [hlog]
      exact hdate

theorem Kept.report (h : Kept s) (hnone : ∀ w, ¬Passing s w)
    (hreads : ∀ w c, (s.windows w).read ≠ some (s.declare.versionCounter, c)) {b : UInt64}
    (hlt : b.toNat < s.declare.versionCounter.toNat) (hnew : ∀ w st, .reported w b st ∉ s.log)
    (hdate : UpToDate window s.log) (config : σ) (st : ReportStatus) :
    Kept ({ s with config := config }.mark (.reported window b st)) := by
  refine ⟨h.initial, fun w b' st' hmem => ?_, h.held, fun w c hread => absurd hread (hreads w c),
    h.loaded, fun w hw => absurd hw (hnone w), h.single, noLostUpdate_report h.noLost hnew hdate⟩
  rcases List.mem_append.mp hmem with hmem | hmem
  · exact h.reported w b' st' hmem
  · rw [List.mem_singleton, WindowMark.reported.injEq] at hmem
    rw [hmem.2.1]
    exact hlt

theorem Kept.finish (h : Kept s) {b : UInt64} {c : σ} {json : Bytes}
    (hwindow : s.windows window = ⟨some (b, c), some (.passed json)⟩) {next : EditorState σ}
    (hstep : s.step commit (.finish window) = some next) : Kept next := by
  have hpassing : Passing s window := ⟨json, by rw [hwindow]⟩
  have hreturned : Kept (s.setWindow window ⟨some (b, c), none⟩) := by
    have hset := h.setCall window none (by simp) (by simp)
    rwa [hwindow] at hset
  unfold EditorState.step at hstep
  simp only [hwindow] at hstep
  split at hstep
  · cases hstep
    exact hreturned
  · cases hstep
    obtain ⟨b', c', hread, hlt, hnew, hdate⟩ := h.passing window hpassing
    rw [hwindow, Option.some.injEq, Prod.mk.injEq] at hread
    rw [← hread.1] at hlt hnew
    apply hreturned.report _ _ hlt hnew hdate
    · rintro w ⟨e, he⟩
      by_cases hw : w = window
      · subst hw
        simp [setWindow] at he
      · simp only [setWindow, Function.update_of_ne hw] at he
        exact hw (h.single w window ⟨e, he⟩ hpassing)
    · intro w c hw
      by_cases hwin : w = window
      · subst hwin
        simp only [setWindow, Function.update_self, Option.some.injEq, Prod.mk.injEq] at hw
        rw [hw.1] at hlt
        exact lt_irrefl _ hlt
      · simp only [setWindow, Function.update_of_ne hwin] at hw
        exact (h.fresh w c hw).1 window hpassing

theorem Kept.step (h : Kept s) {e : EditorEvent} (he : SamplesWhatItRead s e)
    (hstep : s.step commit e = some s') : Kept s' := by
  cases e with
  | ensureInit =>
      cases hstep
      exact h.ensureInit
  | checkVersion expected =>
      cases hstep
      by_cases hrc : (s.declare.commitCheckVersion expected).1 = 0
      · obtain ⟨hinit, rfl, hcheck⟩ := check_passed hrc
        rw [hcheck]
        exact h.raise hinit he
      · rw [check_refused hrc]
        exact h
  | read window =>
      unfold EditorState.step at hstep
      dsimp only at hstep
      split at hstep
      · exact absurd hstep (by simp)
      · cases hstep
        rw [h.getVersion_eq]
        exact h.read fun w hw => hw.elim fun e hpassed => he w e hpassed
  | call window json =>
      unfold EditorState.step at hstep
      dsimp only at hstep
      split at hstep
      · rename_i read hwindow
        cases hstep
        have hset := h.setCall window (some (.entered json)) (by simp) (by simp)
        rwa [hwindow] at hset
      · exact absurd hstep (by simp)
  | load window =>
      unfold EditorState.step at hstep
      dsimp only at hstep
      split at hstep
      · rename_i read json hwindow
        cases hstep
        have hread : (s.windows window).read = some read := by rw [hwindow]
        have hversion := he read.1 read.2 hread
        have hset := h.setCall window (some (.loaded json s.declare.getVersion)) (by simp) (by
            intro e expected hcall
            rw [Option.some.injEq, CommitCallAt.loaded.injEq] at hcall
            rw [hread, ← hcall.2, ← hversion]
            exact ⟨read.2, rfl⟩)
        rwa [hwindow] at hset
      · exact absurd hstep (by simp)
  | exchange window =>
      unfold EditorState.step at hstep
      dsimp only at hstep
      split at hstep
      · rename_i read json expected hwindow
        have hread : (s.windows window).read = some read := by rw [hwindow]
        split at hstep
        · rename_i hrc
          cases hstep
          obtain ⟨hinit, hversion, hcheck⟩ := check_passed hrc
          obtain ⟨c, hloaded⟩ := h.loaded window json expected (by rw [hwindow])
          rw [← hversion] at hloaded hcheck ⊢
          have hpassed := h.exchange hinit he hloaded json
          rw [hread] at hpassed
          rw [hcheck]
          exact hpassed
        · cases hstep
          have hset := h.setCall window none (by simp) (by simp)
          rw [hread] at hset
          exact hset.conflict window
      · exact absurd hstep (by simp)
  | finish window =>
      have hfinish := hstep
      unfold EditorState.step at hstep
      dsimp only at hstep
      split at hstep
      · rename_i b c json hwindow
        exact h.finish hwindow hfinish
      · exact absurd hstep (by simp)

/-- No update is lost in any run whose steps sample what their windows read. -/
theorem noLostUpdate_of_reachable (commit : List (Bytes × Bytes) → σ → ReportStatus × σ)
    (config : σ)
    (h : (editorMachine commit config).ReachableMeeting SamplesWhatItRead s) :
    NoLostUpdate s.log := by
  have hkept : Kept s := by
    refine h.invariant ?_ fun s e s' hs he hstep => hs.step he hstep
    refine ⟨fun _ => rfl, ?_, ?_, ?_, ?_, ?_, ?_, fun _ => Nat.zero_le _, Guarded.nil⟩
    · intro w b st hmem
      exact absurd hmem List.not_mem_nil
    · intro w b c hread
      exact absurd hread (by simp [editorMachine])
    · intro w c hread
      exact absurd hread (by simp [editorMachine])
    · intro w e expected hcall
      exact absurd hcall (by simp [editorMachine])
    · rintro w ⟨e, he⟩
      exact absurd he (by simp [editorMachine])
    · rintro w w' ⟨e, he⟩
      exact absurd he (by simp [editorMachine])
  exact hkept.noLost

/-- The commit of a session on its pending bytes: there has to be one. -/
def storeEntries (entries : List (Bytes × Bytes)) (config : List (Bytes × Bytes)) :
    ReportStatus × List (Bytes × Bytes) :=
  let pending := entries.filter fun e => e.2 ≠ []
  if pending = [] then (.failed, config) else (.success, pending)

def oneEntry : Bytes := ascii "[\x7b\"key\":\"a\",\"value\":\"1\"\x7d]"

def commitCalls (window : Nat) : List EditorEvent :=
  [.call window oneEntry, .load window, .exchange window, .finish window]

theorem noLostUpdate_oneWindow :
    ∃ s, (editorMachine storeEntries []).run (editorMachine storeEntries []).init
        (.ensureInit :: .read 0 :: commitCalls 0) = some s ∧ NoLostUpdate s.log := by
  have hmeets : (editorMachine storeEntries []).RunMeets SamplesWhatItRead
      (editorMachine storeEntries []).init (.ensureInit :: .read 0 :: commitCalls 0) := by
    have hnext : (0 : UInt64).toNat + 1 < 2 ^ 64 := by decide
    refine ⟨trivial, ?_, trivial, ?_, hnext, trivial, trivial⟩
    · intro w e he
      exact absurd he (by simp [editorMachine])
    · intro based config hread
      obtain rfl := (Prod.mk.inj (Option.some.inj hread)).1
      rfl
  have hreach := Machine.ReachableMeeting.run (.init (editorMachine storeEntries []) _) hmeets rfl
  exact ⟨_, rfl, noLostUpdate_of_reachable storeEntries [] hreach⟩

/-- Two windows read the same version; both commit, one after the other, and neither
is told of a conflict. -/
theorem two_windows_lose_update :
    ∃ s, (editorMachine storeEntries []).run (editorMachine storeEntries []).init
        (.ensureInit :: .read 0 :: .read 1 :: (commitCalls 0 ++ commitCalls 1)) = some s ∧
      .reported 0 0 .failed ∈ s.log ∧ .reported 1 0 .failed ∈ s.log ∧ ¬NoLostUpdate s.log := by
  refine ⟨_, rfl, by decide, by decide, fun h => ?_⟩
  have hcount := h.once 0
  exact absurd hcount (by decide)

end BlessStar.Sdk.Proofs.EditorWindows
