import BlessStar.Lib.ByteString

/-!
# The window of adapter versions

`bs_requirement_check_compatibility` of `resolver.cpp` and its caller in
`requirement_filter.cpp`.  A version is a dotted list of decimal numbers.
-/

namespace BlessStar.Ir

open Lib.ByteString

def strcmp (a b : Bytes) : Ordering := compare (cstr a) (cstr b)

/-- `bs_requirement_check_compatibility`; a missing text is `NULL`. -/
def checkCompatibility (_kernelVersion : Bytes)
    (adapterVersion minAdapterVersion maxAdapterVersion : Option Bytes) : Bool :=
  match adapterVersion with
  | none => false
  | some v =>
      let lo := cstr (minAdapterVersion.getD [])
      let hi := cstr (maxAdapterVersion.getD [])
      if lo ≠ [] ∧ strcmp v lo = .lt then false
      else if hi ≠ [] ∧ strcmp v hi = .gt then false
      else true

/-- The version texts of `KernelBuiltinRequirements`. -/
structure KernelBuiltinRequirements where
  kernelVersion : Bytes
  minAdapterVersion : Bytes
  maxAdapterVersion : Bytes

/-- `bs_adapter_requirement_filter_check_adapter_version`. -/
def checkAdapterVersion (k : Option KernelBuiltinRequirements) (adapterVersion : Option Bytes) :
    Int :=
  match k with
  | none => -1
  | some k =>
      if checkCompatibility k.kernelVersion adapterVersion (some k.minAdapterVersion)
          (some k.maxAdapterVersion)
      then 0 else 1

def dotted (cs : List Nat) : Bytes := cs.flatMap fun c => 46 :: decimal c

structure Version where
  major : Nat
  rest : List Nat
  deriving DecidableEq, Repr

namespace Version

def components (v : Version) : List Nat := v.major :: v.rest

def text (v : Version) : Bytes := decimal v.major ++ dotted v.rest

def component (v : Version) (i : Nat) : Nat := v.components.getD i 0

def AtMost (v w : Version) : Prop :=
  ∀ i, (∀ j < i, v.component j = w.component j) → v.component i ≤ w.component i

end Version

/-- The order of the texts, component by component: two components compare as
their numerals do, and a missing one comes first. -/
def TextAtMost : List Nat → List Nat → Prop
  | [], _ => True
  | _ :: _, [] => False
  | a :: as, b :: bs => if a = b then TextAtMost as bs else decimal a < decimal b

/-- Equally many components, and equally many digits at the first difference. -/
def Aligned : List Nat → List Nat → Prop
  | [], [] => True
  | a :: as, b :: bs => if a = b then Aligned as bs else (decimal a).length = (decimal b).length
  | _, _ => False

instance decidableTextAtMost : ∀ as bs, Decidable (TextAtMost as bs)
  | [], _ => isTrue trivial
  | _ :: _, [] => isFalse id
  | a :: as, b :: bs =>
      if h : a = b then
        match decidableTextAtMost as bs with
        | isTrue ht => isTrue (by rw [TextAtMost, if_pos h]; exact ht)
        | isFalse hf => isFalse (by rw [TextAtMost, if_pos h]; exact hf)
      else
        match (inferInstance : Decidable (decimal a < decimal b)) with
        | isTrue ht => isTrue (by rw [TextAtMost, if_neg h]; exact ht)
        | isFalse hf => isFalse (by rw [TextAtMost, if_neg h]; exact hf)

theorem compare_eq_lt_iff (a b : Bytes) : compare a b = .lt ↔ a < b := by
  induction a generalizing b with
  | nil => cases b <;> simp
  | cons c a ih =>
      cases b with
      | nil => simp
      | cons d b =>
          rw [List.compare_cons_cons, List.cons_lt_cons_iff, ← ih]
          rcases Nat.lt_trichotomy c.toNat d.toNat with h | h | h
          · have hlt : c < d := UInt8.lt_iff_toNat_lt.mpr h
            simp [Std.compare_eq_lt.mpr hlt, hlt]
          · have heq : c = d := UInt8.toNat_inj.mp h
            simp [heq]
          · have hgt : d < c := UInt8.lt_iff_toNat_lt.mpr h
            simp [Std.compare_eq_gt.mpr hgt, UInt8.lt_asymm hgt, (UInt8.ne_of_lt hgt).symm]

theorem compare_eq_gt_iff (a b : Bytes) : compare a b = .gt ↔ b < a := by
  rw [← compare_eq_lt_iff]
  exact Std.OrientedCmp.gt_iff_lt

theorem decimal_lower {n : Nat} {c : UInt8} (hc : c ∈ decimal n) : 46 < c := by
  have h := (isDigit_of_mem_numeral (by decide) hc).decimal_range
  rw [UInt8.lt_iff_toNat_lt]
  show 46 < c.toNat
  omega

theorem dotted_lower (cs : List Nat) : ∀ c ∈ (dotted cs).head?, c ≤ 46 := by
  cases cs with
  | nil => simp [dotted]
  | cons a as => simp [dotted]

theorem append_lt_append_left_iff (u s t : Bytes) : u ++ s < u ++ t ↔ s < t := by
  induction u with
  | nil => rfl
  | cons a u ih => rw [List.cons_append, List.cons_append, List.cons_lt_cons_self, ih]

theorem append_lt_append_iff {u v s t : Bytes} (hu : ∀ c ∈ u, 46 < c) (hv : ∀ c ∈ v, 46 < c)
    (hs : ∀ c ∈ s.head?, c ≤ 46) (ht : ∀ c ∈ t.head?, c ≤ 46) (hne : u ≠ v) :
    u ++ s < v ++ t ↔ u < v := by
  induction u generalizing v with
  | nil =>
      cases v with
      | nil => exact absurd rfl hne
      | cons b v =>
          have hb : 46 < b := hv b List.mem_cons_self
          cases s with
          | nil => simp
          | cons c s =>
              have hc : c ≤ 46 := hs c rfl
              have hcb : c < b := UInt8.lt_of_le_of_lt hc hb
              simp [List.cons_lt_cons_iff, hcb]
  | cons a u ih =>
      have ha : 46 < a := hu a List.mem_cons_self
      cases v with
      | nil =>
          cases t with
          | nil => simp
          | cons c t =>
              have hc : c ≤ 46 := ht c rfl
              have hca : c < a := UInt8.lt_of_le_of_lt hc ha
              have hnot : ¬a < c := UInt8.lt_asymm hca
              have hac : a ≠ c := (UInt8.ne_of_lt hca).symm
              simp [List.cons_lt_cons_iff, hnot, hac]
      | cons b v =>
          rw [List.cons_append, List.cons_append, List.cons_lt_cons_iff, List.cons_lt_cons_iff]
          by_cases hab : a = b
          · have huv : u ≠ v := fun h => hne (by rw [hab, h])
            rw [ih (fun c hc => hu c (List.mem_cons_of_mem _ hc))
              (fun c hc => hv c (List.mem_cons_of_mem _ hc)) huv]
          · simp [hab]

theorem not_dotted_lt_iff (as bs : List Nat) : ¬dotted bs < dotted as ↔ TextAtMost as bs := by
  induction as generalizing bs with
  | nil => simp [dotted, TextAtMost]
  | cons a as ih =>
      cases bs with
      | nil => simp [dotted, TextAtMost]
      | cons b bs =>
          have hstep : dotted (b :: bs) < dotted (a :: as) ↔
              decimal b ++ dotted bs < decimal a ++ dotted as := by
            simp [dotted]
          rw [hstep, TextAtMost]
          by_cases hab : a = b
          · rw [if_pos hab, hab, append_lt_append_left_iff, ih]
          · have hne : decimal b ≠ decimal a := fun h => hab (decimal_inj h).symm
            rw [if_neg hab, append_lt_append_iff (fun _ => decimal_lower)
              (fun _ => decimal_lower) (dotted_lower bs) (dotted_lower as) hne]
            constructor
            · intro h
              rcases List.le_iff_lt_or_eq.mp (List.not_lt.mp h) with hlt | heq
              · exact hlt
              · exact absurd heq.symm hne
            · exact fun h => List.lt_asymm h

theorem not_text_lt_iff (v w : Version) :
    ¬w.text < v.text ↔ TextAtMost v.components w.components := by
  rw [← not_dotted_lt_iff, Version.components, Version.components]
  simp [dotted, Version.text]

theorem cstr_text (v : Version) : cstr v.text = v.text := by
  apply cstr_eq_self
  intro h0
  rcases List.mem_append.mp h0 with h | h
  · exact absurd (decimal_lower h) (by decide)
  · obtain ⟨c, -, hc⟩ := List.mem_flatMap.mp h
    rcases List.mem_cons.mp hc with h46 | hdigit
    · exact absurd h46 (by decide)
    · exact absurd (decimal_lower hdigit) (by decide)

theorem text_ne_nil (v : Version) : v.text ≠ [] := by
  intro h
  exact numeral_ne_nil 10 v.major (List.append_eq_nil_iff.mp h).1

theorem strcmp_text_lt_iff (v w : Version) :
    strcmp v.text w.text ≠ .lt ↔ TextAtMost w.components v.components := by
  rw [strcmp, cstr_text, cstr_text, Ne, compare_eq_lt_iff, not_text_lt_iff]

theorem strcmp_text_gt_iff (v w : Version) :
    strcmp v.text w.text ≠ .gt ↔ TextAtMost v.components w.components := by
  rw [strcmp, cstr_text, cstr_text, Ne, compare_eq_gt_iff, not_text_lt_iff]

/-- The order of `Version.AtMost` on the components. -/
def ListAtMost (as bs : List Nat) : Prop :=
  ∀ i, (∀ j < i, as.getD j 0 = bs.getD j 0) → as.getD i 0 ≤ bs.getD i 0

theorem listAtMost_cons (a b : Nat) (as bs : List Nat) :
    ListAtMost (a :: as) (b :: bs) ↔ a < b ∨ a = b ∧ ListAtMost as bs := by
  constructor
  · intro h
    have hab : a ≤ b := h 0 (fun j hj => absurd hj (Nat.not_lt_zero j))
    rcases Nat.lt_or_eq_of_le hab with hlt | heq
    · exact Or.inl hlt
    · refine Or.inr ⟨heq, fun i hi => h (i + 1) fun j hj => ?_⟩
      cases j with
      | zero => exact heq
      | succ j => exact hi j (Nat.lt_of_succ_lt_succ hj)
  · rintro (hlt | ⟨heq, h⟩) i hi
    · cases i with
      | zero => exact Nat.le_of_lt hlt
      | succ i => exact absurd (hi 0 (Nat.succ_pos i)) (Nat.ne_of_lt hlt)
    · cases i with
      | zero => exact Nat.le_of_eq heq
      | succ i => exact h i fun j hj => hi (j + 1) (Nat.succ_lt_succ hj)

theorem foldl_lt_foldl {ds es : List Nat} (hds : ∀ d ∈ ds, d < 10)
    (hlen : ds.length = es.length) {m n : Nat} (hmn : m < n) :
    ds.foldl (fun acc d => acc * 10 + d) m < es.foldl (fun acc d => acc * 10 + d) n := by
  induction ds generalizing es m n with
  | nil =>
      rw [List.length_eq_zero_iff.mp hlen.symm]
      exact hmn
  | cons d ds ih =>
      cases es with
      | nil => simp at hlen
      | cons e es =>
          have hd : d < 10 := hds d List.mem_cons_self
          have hlt : m * 10 + d < n * 10 + e := by omega
          exact ih (fun x hx => hds x (List.mem_cons_of_mem _ hx)) (Nat.succ.inj hlen) hlt

theorem digitByte_lt_iff {d e : Nat} (hd : d < 10) (he : e < 10) :
    digitByte d < digitByte e ↔ d < e := by
  rw [UInt8.lt_iff_toNat_lt, digitByte_toNat (by omega), digitByte_toNat (by omega), if_pos hd,
    if_pos he]
  omega

theorem map_digitByte_lt_iff {ds es : List Nat} (hds : ∀ d ∈ ds, d < 10) (hes : ∀ e ∈ es, e < 10)
    (hlen : ds.length = es.length) (m : Nat) :
    ds.map digitByte < es.map digitByte ↔
      ds.foldl (fun acc d => acc * 10 + d) m < es.foldl (fun acc d => acc * 10 + d) m := by
  induction ds generalizing es m with
  | nil =>
      rw [List.length_eq_zero_iff.mp hlen.symm]
      simp
  | cons d ds ih =>
      cases es with
      | nil => simp at hlen
      | cons e es =>
          have hd : d < 10 := hds d List.mem_cons_self
          have he : e < 10 := hes e List.mem_cons_self
          have htail : ∀ x ∈ ds, x < 10 := fun x hx => hds x (List.mem_cons_of_mem _ hx)
          have htail' : ∀ x ∈ es, x < 10 := fun x hx => hes x (List.mem_cons_of_mem _ hx)
          have hlen' : ds.length = es.length := Nat.succ.inj hlen
          rw [List.map_cons, List.map_cons, List.cons_lt_cons_iff, digitByte_lt_iff hd he,
            List.foldl_cons, List.foldl_cons]
          rcases Nat.lt_trichotomy d e with hlt | heq | hgt
          · have hfold := foldl_lt_foldl htail hlen' (Nat.add_lt_add_left hlt (m * 10))
            simp [hlt, hfold]
          · rw [heq, ← ih htail htail' hlen']
            simp
          · have hfold := foldl_lt_foldl htail' hlen'.symm (Nat.add_lt_add_left hgt (m * 10))
            have hbyte : digitByte d ≠ digitByte e :=
              fun h => absurd ((digitByte_lt_iff he hd).mpr hgt) (h ▸ UInt8.lt_irrefl _)
            simp [Nat.lt_asymm hgt, hbyte, Nat.lt_asymm hfold]

theorem exists_digits (n : Nat) : ∃ ds : List Nat, (∀ d ∈ ds, d < 10) ∧
    decimal n = ds.map digitByte ∧ ds.foldl (fun acc d => acc * 10 + d) 0 = n := by
  unfold decimal numeral
  split
  · rename_i h0
    exact ⟨[0], by simp, rfl, h0.symm⟩
  · refine ⟨(Nat.digits 10 n).reverse, ?_, rfl, ?_⟩
    · exact fun d hd => Nat.digits_lt_base (by decide) (List.mem_reverse.mp hd)
    · rw [foldl_digits_reverse, Nat.ofDigits_digits]

theorem decimal_lt_iff {a b : Nat} (h : (decimal a).length = (decimal b).length) :
    decimal a < decimal b ↔ a < b := by
  obtain ⟨ds, hds, hda, hva⟩ := exists_digits a
  obtain ⟨es, hes, hdb, hvb⟩ := exists_digits b
  have hlen : ds.length = es.length := by simpa [hda, hdb] using h
  rw [hda, hdb, map_digitByte_lt_iff hds hes hlen 0, hva, hvb]

theorem textAtMost_iff_of_aligned {as bs : List Nat} (h : Aligned as bs) :
    TextAtMost as bs ↔ ListAtMost as bs := by
  induction as generalizing bs with
  | nil =>
      cases bs with
      | nil => simp [TextAtMost, ListAtMost]
      | cons b bs => exact h.elim
  | cons a as ih =>
      cases bs with
      | nil => exact h.elim
      | cons b bs =>
          rw [Aligned] at h
          rw [TextAtMost, listAtMost_cons]
          by_cases hab : a = b
          · rw [if_pos hab] at h ⊢
            simp [ih h, hab]
          · rw [if_neg hab] at h ⊢
            simp [decimal_lt_iff h, hab]

theorem checkCompatibility_text_iff (kernelVersion : Bytes) (v lo hi : Version) :
    checkCompatibility kernelVersion (some v.text) (some lo.text) (some hi.text) = true ↔
      TextAtMost lo.components v.components ∧ TextAtMost v.components hi.components := by
  rw [← strcmp_text_lt_iff, ← strcmp_text_gt_iff, checkCompatibility]
  simp [cstr_text, text_ne_nil]

/-- **The window compares texts.** A version passes exactly when it lies between
the bounds in the order of the texts, component by component.  Where it is
aligned with both bounds, that is the numeric window. -/
theorem checkCompatibility_iff (kernelVersion : Bytes) (lo hi v : Version) :
    (checkCompatibility kernelVersion (some v.text) (some lo.text) (some hi.text) = true ↔
      TextAtMost lo.components v.components ∧ TextAtMost v.components hi.components) ∧
    (Aligned lo.components v.components → Aligned v.components hi.components →
      (checkCompatibility kernelVersion (some v.text) (some lo.text) (some hi.text) = true ↔
        lo.AtMost v ∧ v.AtMost hi)) := by
  refine ⟨checkCompatibility_text_iff kernelVersion v lo hi, fun hlo hhi => ?_⟩
  have hwindow := checkCompatibility_text_iff kernelVersion v lo hi
  rwa [textAtMost_iff_of_aligned hlo, textAtMost_iff_of_aligned hhi] at hwindow

theorem checkCompatibility_iff_aligned :
    checkCompatibility [] (some (ascii "1.5")) (some (ascii "1.2")) (some (ascii "1.9")) = true ∧
      (Version.mk 1 [2]).AtMost ⟨1, [5]⟩ ∧ (Version.mk 1 [5]).AtMost ⟨1, [9]⟩ := by
  have hwindow := (checkCompatibility_iff [] ⟨1, [2]⟩ ⟨1, [9]⟩ ⟨1, [5]⟩).2
    (by simp [Version.components, Aligned, decimal, numeral])
    (by simp [Version.components, Aligned, decimal, numeral])
  have haccepted : checkCompatibility [] (some (Version.mk 1 [5]).text)
      (some (Version.mk 1 [2]).text) (some (Version.mk 1 [9]).text) = true := by
    simp [Version.text, dotted, decimal, numeral]
    decide
  have htext : (Version.mk 1 [5]).text = ascii "1.5" ∧ (Version.mk 1 [2]).text = ascii "1.2" ∧
      (Version.mk 1 [9]).text = ascii "1.9" := by
    simp [Version.text, dotted, decimal, numeral]
    decide
  rw [← htext.1, ← htext.2.1, ← htext.2.2]
  exact ⟨haccepted, hwindow.mp haccepted⟩

theorem atMost_of_major_lt {v w : Version} (h : v.major < w.major) : v.AtMost w :=
  (listAtMost_cons v.major w.major v.rest w.rest).mpr (Or.inl h)

/-- Version 10 lies between 2 and 10, and is refused. -/
theorem ten_below_two :
    ¬∀ (kernelVersion : Bytes) (lo hi v : Version),
      (checkCompatibility kernelVersion (some v.text) (some lo.text) (some hi.text) = true ↔
        lo.AtMost v ∧ v.AtMost hi) := by
  intro hclaim
  have hnumeric : (Version.mk 2 []).AtMost ⟨10, []⟩ ∧ (Version.mk 10 []).AtMost ⟨10, []⟩ :=
    ⟨atMost_of_major_lt (by decide), fun i _ => Nat.le_refl _⟩
  have haccepted := (checkCompatibility_text_iff [] ⟨10, []⟩ ⟨2, []⟩ ⟨10, []⟩).mp
    ((hclaim [] ⟨2, []⟩ ⟨10, []⟩ ⟨10, []⟩).mpr hnumeric)
  have hrefused : ¬TextAtMost [2] [10] := by
    simp [TextAtMost, decimal, numeral]
    decide
  exact hrefused haccepted.1

end BlessStar.Ir
