import BlessStar.Sdk.ReloadSession
import BlessStar.Session.Proofs.SnapshotRevision

/-!
# The keys of a commit

The second phase of a commit stops at the first key that is refused, with the
keys before it changed.
-/

namespace BlessStar.Sdk.Proofs.SessionCommit

open Lib.ByteString Orchestration Session State
open Session.Proofs.SnapshotRevision

variable {ρ σ : Type} {E : SessionEnv ρ σ}

theorem setState_of_ne {bus : StateBus} {path other : Bytes} (h : other ≠ path)
    (state : ConfigState) (data : Bytes) :
    bus.setState path state data true other = bus other :=
  Function.update_of_ne h _ _

theorem emitTransitions_of_ne {bus : StateBus} {path other : Bytes} (h : other ≠ path)
    (emissions : List Emission) : emitTransitions bus path emissions other = bus other := by
  unfold emitTransitions
  induction emissions generalizing bus with
  | nil => rfl
  | cons e rest ih =>
      rw [List.foldl_cons, ih]
      exact setState_of_ne h e.toState e.data

/-- The version of a path, `0` for one that is not there. -/
def versionOf (bus : StateBus) (path : Bytes) : UInt64 := ((bus path).getD {}).pub.version

theorem versionOf_setState (bus : StateBus) (path : Bytes) (state : ConfigState) (data : Bytes) :
    versionOf (bus.setState path state data true) path = versionOf bus path + 1 := by
  unfold versionOf StateBus.setState
  rw [Function.update_self]
  rfl

variable {c : CommitState σ} {path data : Bytes}

theorem configSyncPath_of_ne {inCallback : Bool} {other : Bytes} (h : other ≠ path) :
    (configSyncPath inCallback path data c).2.stateBus other = c.stateBus other := by
  unfold configSyncPath
  split
  · rfl
  · split
    · rfl
    · exact emitTransitions_of_ne h _

theorem configSyncPath_ok {inCallback : Bool} (h : (configSyncPath inCallback path data c).1 = 0) :
    ∃ first last : Emission, last.data = data ∧
      (configSyncPath inCallback path data c).2.stateBus =
        (c.stateBus.setState path first.toState first.data true).setState
          path last.toState last.data true := by
  unfold configSyncPath at h ⊢
  split
  · rename_i hcallback
    rw [if_pos hcallback] at h
    cases h
  · rename_i hcallback
    rw [if_neg hcallback] at h
    split
    · rename_i rc hsync
      rw [hsync] at h
      have herror := hsync
      unfold syncEmissions loadConfig hotUpdate reloadConfig at herror
      dsimp only at h herror
      subst h
      split at herror
      · split at herror
        · cases herror
        · cases herror
      · split at herror
        · split at herror
          · cases herror
          · cases herror
        · split at herror
          · cases herror
          · cases herror
    · rename_i emissions hsync
      obtain ⟨first, last, rfl, hdata⟩ := syncEmissions_two hsync
      exact ⟨first, last, hdata, rfl⟩

theorem getConfigByUri_sync {inCallback : Bool} (hdata : data ≠ [])
    (h : (configSyncPath inCallback path data c).1 = 0) :
    getConfigByUri (configSyncPath inCallback path data c).2 path = .ok data := by
  obtain ⟨first, last, hlast, hbus⟩ := configSyncPath_ok h
  obtain ⟨payload, hpin, hbytes⟩ := pinSnapshot_setState
    (c.stateBus.setState path first.toState first.data true) path last.toState last.data
  rw [getConfigByUri, hbus, hpin, copySnapshot, hbytes, hlast, if_neg hdata, if_pos rfl]

theorem configSyncPath_changes {inCallback : Bool}
    (h : (configSyncPath inCallback path data c).1 = 0) :
    (configSyncPath inCallback path data c).2.stateBus path ≠ c.stateBus path := by
  obtain ⟨first, last, -, hbus⟩ := configSyncPath_ok h
  intro hsame
  have hversion : versionOf (configSyncPath inCallback path data c).2.stateBus path =
      versionOf c.stateBus path := by
    rw [versionOf, hsame]
    rfl
  rw [hbus, versionOf_setState, versionOf_setState] at hversion
  generalize versionOf c.stateBus path = v at hversion
  have htoNat := congrArg UInt64.toNat hversion
  simp only [UInt64.toNat_add, UInt64.toNat_one] at htoNat
  have hlt := v.toNat_lt
  omega

theorem configSyncPath_failed {inCallback : Bool}
    (h : (configSyncPath inCallback path data c).1 ≠ 0) :
    (configSyncPath inCallback path data c).2 = c := by
  unfold configSyncPath at h ⊢
  split
  · rfl
  · rename_i hcallback
    rw [if_neg hcallback] at h
    split
    · rfl
    · rename_i emissions hsync
      rw [hsync] at h
      exact absurd rfl h

def SyncRefused (inCallback : Bool) (bus : StateBus) (uri : Bytes) : Prop :=
  inCallback = true ∨ (lookupState bus uri).2 = .loading ∨ (lookupState bus uri).2 = .updating

theorem syncRefused_iff {inCallback : Bool} :
    (configSyncPath inCallback path data c).1 ≠ 0 ↔
      SyncRefused inCallback c.stateBus path := by
  unfold configSyncPath SyncRefused syncEmissions loadConfig hotUpdate reloadConfig
  have hinitial : (lookupState c.stateBus path).1 = false →
      (lookupState c.stateBus path).2 = .initial := by
    unfold lookupState
    split
    · exact fun _ => rfl
    · exact fun h => by cases h
  generalize lookupState c.stateBus path = found at hinitial ⊢
  obtain ⟨found, current⟩ := found
  cases inCallback with
  | true => simp [concErrReentrant]
  | false =>
      cases found with
      | false =>
          obtain rfl : current = .initial := hinitial rfl
          simp
      | true => cases current <;> simp

def lastPassed (passed : List (Bytes × Bytes)) (uri : Bytes) : Option Bytes :=
  (passed.find? fun p => p.1 = uri).map (·.2)

theorem lastPassed_cons_self (uri data : Bytes) (passed : List (Bytes × Bytes)) :
    lastPassed ((uri, data) :: passed) uri = some data := by
  simp [lastPassed]

theorem lastPassed_append_right {news passed : List (Bytes × Bytes)} {uri : Bytes}
    (h : ∀ p ∈ news, p.1 ≠ uri) : lastPassed (news ++ passed) uri = lastPassed passed uri := by
  have hnone : news.find? (fun p => p.1 = uri) = none := by
    rw [List.find?_eq_none]
    intro p hp
    simpa using h p hp
  rw [lastPassed, List.find?_append, hnone, Option.none_or]
  rfl

theorem mem_of_lastPassed {passed : List (Bytes × Bytes)} {uri data : Bytes}
    (h : lastPassed passed uri = some data) : ∃ p ∈ passed, p.1 = uri := by
  obtain ⟨p, hp, -⟩ := Option.map_eq_some_iff.mp h
  have huri := List.find?_some hp
  exact ⟨p, List.mem_of_find?_eq_some hp, by simpa using huri⟩

section Mems

variable {gates : SessionGates} {report : CommitReport} {g : Gated (CommitState σ)}
  {e : Bytes × Bytes} {es : List (Bytes × Bytes)}

def KeyRefused (E : SessionEnv ρ σ) (gates : SessionGates) (bus : StateBus) (e : Bytes × Bytes) :
    Prop :=
  sessionGate E.parser gates e.2 ≠ reloadGateOk ∨ SyncRefused E.inCallback bus (memUri e.1)

def passKey (E : SessionEnv ρ σ) (e : Bytes × Bytes) (g : Gated (CommitState σ)) :
    Gated (CommitState σ) :=
  { gateKey E.parser e.1 e.2 g with s := (configSyncPath E.inCallback (memUri e.1) e.2 g.s).2 }

theorem memUri_inj {key key' : Bytes} (h : memUri key = memUri key') : key = key' :=
  List.append_cancel_left h

theorem keyRefused_congr {bus bus' : StateBus} (h : bus (memUri e.1) = bus' (memUri e.1)) :
    KeyRefused E gates bus e ↔ KeyRefused E gates bus' e := by
  unfold KeyRefused SyncRefused lookupState StateBus.getState
  rw [h]

theorem commitMems_refused (es : List (Bytes × Bytes)) (report : CommitReport)
    (h : KeyRefused E gates g.s.stateBus e) :
    (commitMems E gates (e :: es) report g).1.status = .failed ∧
      (commitMems E gates (e :: es) report g).2.s = g.s := by
  rw [commitMems]
  dsimp only
  split
  · exact ⟨rfl, rfl⟩
  · rename_i hgate
    have hsync : (configSyncPath E.inCallback (memUri e.1) e.2 g.s).1 ≠ 0 :=
      syncRefused_iff.mpr (h.resolve_left hgate)
    split
    · exact ⟨rfl, configSyncPath_failed hsync⟩
    · rename_i hok
      exact absurd hsync hok

theorem commitMems_next (h : ¬KeyRefused E gates g.s.stateBus e) :
    commitMems E gates (e :: es) report g = commitMems E gates es report (passKey E e g) := by
  rw [KeyRefused, not_or] at h
  rw [commitMems]
  dsimp only
  rw [if_neg h.1, if_neg]
  · rfl
  · intro hsync
    exact h.2 (syncRefused_iff.mp hsync)

theorem passKey_of_ne {uri : Bytes} (h : uri ≠ memUri e.1) :
    (passKey E e g).s.stateBus uri = g.s.stateBus uri :=
  configSyncPath_of_ne h

theorem commitMems_of_ne {uri : Bytes} (h : ∀ e ∈ es, uri ≠ memUri e.1) :
    (commitMems E gates es report g).2.s.stateBus uri = g.s.stateBus uri := by
  induction es generalizing g with
  | nil => rfl
  | cons e es ih =>
      by_cases hrefused : KeyRefused E gates g.s.stateBus e
      · rw [(commitMems_refused es report hrefused).2]
      · rw [commitMems_next hrefused, ih fun x hx => h x (List.mem_cons_of_mem e hx)]
        exact passKey_of_ne (h e List.mem_cons_self)

theorem keyRefused_passKey {e' : Bytes × Bytes} (h : e.1 ≠ e'.1) :
    KeyRefused E gates (passKey E e g).s.stateBus e' ↔ KeyRefused E gates g.s.stateBus e' := by
  apply keyRefused_congr
  exact passKey_of_ne fun heq => h (memUri_inj heq).symm

theorem commitMems_status (hkeys : es.Pairwise fun e e' => e.1 ≠ e'.1)
    (hreport : report.status = .success) :
    (commitMems E gates es report g).1.status = .success ↔
      ∀ e ∈ es, ¬KeyRefused E gates g.s.stateBus e := by
  induction es generalizing g with
  | nil =>
      rw [commitMems]
      exact iff_of_true hreport (by simp)
  | cons e es ih =>
      obtain ⟨hhead, htail⟩ := List.pairwise_cons.mp hkeys
      rw [List.forall_mem_cons]
      by_cases hrefused : KeyRefused E gates g.s.stateBus e
      · rw [(commitMems_refused es report hrefused).1]
        exact iff_of_false (by simp) fun h => h.1 hrefused
      · rw [commitMems_next hrefused, ih htail]
        have hsame : (∀ x ∈ es, ¬KeyRefused E gates (passKey E e g).s.stateBus x) ↔
            ∀ x ∈ es, ¬KeyRefused E gates g.s.stateBus x :=
          forall₂_congr fun x hx => not_congr (keyRefused_passKey (hhead x hx))
        rw [hsame]
        exact ⟨fun h => ⟨hrefused, h⟩, fun h => h.2⟩

theorem commitMems_passed (E : SessionEnv ρ σ) (gates : SessionGates) (es : List (Bytes × Bytes))
    (report : CommitReport) (g : Gated (CommitState σ)) :
    ∃ news, (commitMems E gates es report g).2.passed = news ++ g.passed ∧
      ∀ p ∈ news, ∃ e ∈ es, p.1 = memUri e.1 := by
  induction es generalizing g with
  | nil => exact ⟨[], rfl, by simp⟩
  | cons e es ih =>
      by_cases hrefused : KeyRefused E gates g.s.stateBus e
      · rw [commitMems]
        dsimp only
        split
        · exact ⟨[], rfl, by simp⟩
        split
        · exact ⟨[(memUri e.1, e.2)], rfl, by simp⟩
        · rename_i hgate hsync
          exact absurd (hrefused.resolve_left hgate) fun h => hsync (syncRefused_iff.mpr h)
      · rw [commitMems_next hrefused]
        obtain ⟨news, hnews, hkeys⟩ := ih (passKey E e g)
        refine ⟨news ++ [(memUri e.1, e.2)], ?_, ?_⟩
        · rw [hnews, List.append_assoc]
          rfl
        · intro p hp
          rcases List.mem_append.mp hp with hp | hp
          · obtain ⟨x, hx, hpx⟩ := hkeys p hp
            exact ⟨x, List.mem_cons_of_mem e hx, hpx⟩
          · obtain rfl := List.mem_singleton.mp hp
            exact ⟨e, List.mem_cons_self, rfl⟩

theorem commitMems_synced (hkeys : es.Pairwise fun e e' => e.1 ≠ e'.1)
    (hbytes : ∀ e ∈ es, e.2 ≠ []) (h : ∀ e ∈ es, ¬KeyRefused E gates g.s.stateBus e) :
    ∀ e ∈ es, lastPassed (commitMems E gates es report g).2.passed (memUri e.1) = some e.2 ∧
      getConfigByUri (commitMems E gates es report g).2.s (memUri e.1) = .ok e.2 := by
  induction es generalizing g with
  | nil => simp
  | cons e es ih =>
      obtain ⟨hhead, htail⟩ := List.pairwise_cons.mp hkeys
      have hrefused := h e List.mem_cons_self
      rw [commitMems_next hrefused]
      intro x hx
      rcases List.mem_cons.mp hx with rfl | hx
      · obtain ⟨news, hnews, hother⟩ := commitMems_passed E gates es report (passKey E x g)
        have hframe : (commitMems E gates es report (passKey E x g)).2.s.stateBus (memUri x.1) =
            (passKey E x g).s.stateBus (memUri x.1) :=
          commitMems_of_ne fun e' he' heq => hhead e' he' (memUri_inj heq)
        constructor
        · have hnot : ∀ p ∈ news, p.1 ≠ memUri x.1 := by
            intro p hp heq
            obtain ⟨e', he', huri⟩ := hother p hp
            exact hhead e' he' (memUri_inj (heq.symm.trans huri))
          rw [hnews, lastPassed_append_right hnot]
          exact lastPassed_cons_self (memUri x.1) x.2 g.passed
        · rw [getConfigByUri, pinSnapshot, hframe]
          rw [KeyRefused, not_or] at hrefused
          exact getConfigByUri_sync (hbytes x List.mem_cons_self)
            (not_not.mp fun hsync => hrefused.2 (syncRefused_iff.mp hsync))
      · apply ih htail (fun e' he' => hbytes e' (List.mem_cons_of_mem e he')) _ x hx
        intro e' he'
        rw [keyRefused_passKey (hhead e' he')]
        exact h e' (List.mem_cons_of_mem e he')

theorem commitMems_changes (report : CommitReport)
    (hkeys : (e :: es).Pairwise fun e e' => e.1 ≠ e'.1)
    (h : ¬KeyRefused E gates g.s.stateBus e) :
    (commitMems E gates (e :: es) report g).2.s.stateBus (memUri e.1) ≠
      g.s.stateBus (memUri e.1) := by
  obtain ⟨hhead, -⟩ := List.pairwise_cons.mp hkeys
  rw [commitMems_next h, commitMems_of_ne fun e' he' heq => hhead e' he' (memUri_inj heq)]
  rw [KeyRefused, not_or] at h
  exact configSyncPath_changes (not_not.mp fun hsync => h.2 (syncRefused_iff.mp hsync))

end Mems

end BlessStar.Sdk.Proofs.SessionCommit
