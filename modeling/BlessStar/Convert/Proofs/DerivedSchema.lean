import BlessStar.Convert.SchemaDerive

/-!
# What is derived from an object

The walk finds every member, and names it by the keys on the way to it unless the
first of them is empty.  The schema has a comma behind each property but the last
field, and the rest of a line that does not fit is printed over.
-/

namespace BlessStar.Convert.Proofs.DerivedSchema

open Lib.ByteString Lib.FixedBuffer Lib.JsonText

variable {r : Bytes}

/-! ## Keys -/

def joinKey (pre key : Bytes) : Bytes := if pre = [] then key else pre ++ ascii "." ++ key

def walkedKey (path : List Bytes) : Bytes := path.foldl joinKey []

theorem walkedKey_concat (path : List Bytes) (key : Bytes) :
    walkedKey (path ++ [key]) = joinKey (walkedKey path) key := List.foldl_concat ..

theorem dottedPath_cons (key : Bytes) (path : List Bytes) :
    dottedPath (key :: path) = key ++ path.flatMap fun k => ascii "." ++ k :=
  intercalate_cons_flatMap _ key path

theorem foldl_joinKey {pre : Bytes} (hpre : pre ≠ []) (path : List Bytes) :
    path.foldl joinKey pre = pre ++ path.flatMap fun k => ascii "." ++ k := by
  induction path generalizing pre with
  | nil => exact (List.append_nil pre).symm
  | cons k path ih =>
      have hnext : joinKey pre k = pre ++ ascii "." ++ k := if_neg hpre
      rw [List.foldl_cons, hnext, ih (by simp [hpre]), List.flatMap_cons, List.append_assoc,
        List.append_assoc, List.append_assoc]

theorem walkedKey_cons {key : Bytes} (hkey : key ≠ []) (path : List Bytes) :
    walkedKey (key :: path) = dottedPath (key :: path) := by
  rw [walkedKey, List.foldl_cons, joinKey, if_pos rfl, foldl_joinKey hkey, dottedPath_cons]

theorem walkedKey_nil_cons (path : List Bytes) : walkedKey ([] :: path) = walkedKey path := rfl

theorem length_walkedKey (path : List Bytes) :
    (walkedKey path).length ≤ (dottedPath path).length := by
  induction path with
  | nil => exact Nat.le_refl _
  | cons key path ih =>
      by_cases hkey : key = []
      · rw [hkey, walkedKey_nil_cons, dottedPath_cons, List.nil_append]
        cases path with
        | nil => exact Nat.zero_le _
        | cons k path =>
            rw [dottedPath_cons] at ih
            rw [List.flatMap_cons, List.append_assoc, List.length_append]
            exact ih.trans (Nat.le_add_left _ _)
      · rw [walkedKey_cons hkey]

theorem walkedKey_eq_iff (path : List Bytes) :
    walkedKey path = dottedPath path ↔ path.length ≤ 1 ∨ path.head? ≠ some [] := by
  match path with
  | [] => exact iff_of_true rfl (Or.inl (Nat.zero_le 1))
  | [key] =>
      refine iff_of_true ?_ (Or.inl (Nat.le_refl 1))
      rw [dottedPath_cons, List.flatMap_nil, List.append_nil]
      rfl
  | key :: k :: path =>
      by_cases hkey : key = []
      · refine iff_of_false (fun heq => ?_) (by simp [hkey])
        have hlen := length_walkedKey (k :: path)
        rw [hkey, walkedKey_nil_cons] at heq
        rw [heq, dottedPath_cons, dottedPath_cons, List.nil_append, List.flatMap_cons,
          List.append_assoc, List.length_append] at hlen
        have hdot : (ascii ".").length = 1 := rfl
        omega
      · exact iff_of_true (walkedKey_cons hkey _) (Or.inr (by simpa using hkey))

theorem fullKey_eq {pre key : Bytes} (hkey : (0 : UInt8) ∉ key)
    (hlen : (joinKey pre key).length < 1024) : fullKey pre key = joinKey pre key := by
  have hshort : key.length < 1024 := by
    refine Nat.lt_of_le_of_lt ?_ hlen
    unfold joinKey
    split
    · exact Nat.le_refl _
    · rw [List.length_append]
      exact Nat.le_add_left _ _
  have hprecision : precision key = key := by
    have hmod : key.length % 2 ^ 32 = key.length := Nat.mod_eq_of_lt (by omega)
    have htake : (key.take (key.length % 2 ^ 32)) = key := by rw [hmod, List.take_length]
    unfold precision
    dsimp only
    rw [htake, ite_self, cstr_eq_self hkey]
  rw [fullKey, hprecision]
  exact List.take_of_length_le (by unfold joinKey at hlen; omega)

/-! ## Arrays -/

theorem skipArray_body {body : Bytes} (hb : IsBody body) (depth : Nat) (r : Bytes) :
    skipArray true (depth + 1) (body ++ ch '"' :: r) = skipArray false (depth + 1) r := by
  have hbyte : ∀ {c : UInt8} (s : Bytes), c ≠ ch '"' → c ≠ ch '\\' →
      skipArray true (depth + 1) (c :: s) = skipArray true (depth + 1) s := by
    intro c s hquote hslash
    rw [skipArray.eq_def]
    dsimp only
    rw [if_neg hquote, if_neg hslash]
  have hescape : ∀ (e : UInt8) (s : Bytes),
      skipArray true (depth + 1) (ch '\\' :: e :: s) = skipArray true (depth + 1) s := fun _ _ => rfl
  have hhex : ∀ {d : UInt8} (s : Bytes), (digitValue 16 d).isSome →
      skipArray true (depth + 1) (d :: s) = skipArray true (depth + 1) s := by
    intro d s hsome
    apply hbyte
    · rintro rfl
      exact absurd hsome (by decide)
    · rintro rfl
      exact absurd hsome (by decide)
  induction hb with
  | nil =>
      rw [List.nil_append, skipArray.eq_def]
      dsimp only
      rw [if_pos rfl]
  | raw _ hquote hslash _ ih => rw [List.cons_append, hbyte _ hquote hslash, ih]
  | escape _ _ ih => rw [List.cons_append, List.cons_append, hescape, ih]
  | unicode hd _ ih =>
      simp only [List.forall_mem_cons] at hd
      simp only [List.cons_append]
      rw [hescape, hhex _ hd.1, hhex _ hd.2.1, hhex _ hd.2.2.1, hhex _ hd.2.2.2.1, ih]

theorem skipArray_bare {s : Bytes} (h : ∀ c ∈ s, c ∉ ascii "[]\"") (depth : Nat) (r : Bytes) :
    skipArray false (depth + 1) (s ++ r) = skipArray false (depth + 1) r := by
  induction s with
  | nil => rfl
  | cons c s ih =>
      obtain ⟨hc, hrest⟩ := List.forall_mem_cons.mp h
      have hne : ∀ d ∈ ascii "[]\"", c ≠ d := by
        rintro d hd rfl
        exact hc hd
      rw [List.cons_append, skipArray.eq_def]
      dsimp only
      rw [if_neg (hne _ (by decide)), if_neg (hne _ (by decide)), if_neg (hne _ (by decide))]
      exact ih hrest

theorem skipArray_gap {ws : Bytes} (hws : IsGap ws) (depth : Nat) (r : Bytes) :
    skipArray false (depth + 1) (ws ++ r) = skipArray false (depth + 1) r :=
  skipArray_bare (fun c hc => (by decide : ∀ c ∈ ascii " \t\n\r", c ∉ ascii "[]\"") c (hws c hc))
    depth r

theorem skipArray_byte {c : UInt8} (hc : c ∉ ascii "[]\"") (depth : Nat) (r : Bytes) :
    skipArray false (depth + 1) (c :: r) = skipArray false (depth + 1) r :=
  skipArray_bare (s := [c]) (by simpa using hc) depth r

theorem skipArray_quoted {body : Bytes} (hb : IsBody body) (depth : Nat) (r : Bytes) :
    skipArray false (depth + 1) (ch '"' :: (body ++ ch '"' :: r)) =
      skipArray false (depth + 1) r := skipArray_body hb depth r

theorem skipArray_key {key : MemberKey} (h : key.Valid) (depth : Nat) (r : Bytes) :
    skipArray false (depth + 1) (key.text ++ r) = skipArray false (depth + 1) r := by
  rw [MemberKey.text, List.append_assoc, skipArray_gap h.before, List.cons_append,
    List.append_assoc, List.cons_append, skipArray_quoted h.body, List.append_assoc,
    skipArray_gap h.beforeColon, List.cons_append, skipArray_byte (by decide),
    skipArray_gap h.afterColon]

mutual

theorem skipArray_value : ∀ {v : Json}, v.Valid → ∀ (depth : Nat) (r : Bytes),
    skipArray false (depth + 1) (v.text ++ r) = skipArray false (depth + 1) r
  | .string body, h, depth, r => by
      rw [Json.text, List.cons_append, List.append_assoc]
      exact skipArray_quoted h depth r
  | .number text, h, depth, r => skipArray_bare (IsNumber.forall h _ (by decide)) depth r
  | .word w, _, depth, r => by cases w <;> exact skipArray_bare (by decide) depth r
  | .emptyArray ws, h, depth, r => by
      rw [Json.text, List.cons_append, List.append_assoc]
      exact skipArray_gap h (depth + 1) (ch ']' :: r)
  | .array items, h, depth, r => by
      rw [Json.text, List.cons_append, List.append_assoc]
      exact skipArray_items h (depth + 1) (ch ']' :: r)
  | .emptyObject ws, h, depth, r => by
      rw [Json.text, List.cons_append, List.append_assoc, skipArray_byte (by decide),
        skipArray_gap h]
      exact skipArray_byte (by decide) depth r
  | .object members, h, depth, r => by
      rw [Json.text, List.cons_append, List.append_assoc, skipArray_byte (by decide),
        skipArray_members h]
      exact skipArray_byte (by decide) depth r

theorem skipArray_items : ∀ {items : Items}, items.Valid → ∀ (depth : Nat) (r : Bytes),
    skipArray false (depth + 1) (items.text ++ r) = skipArray false (depth + 1) r
  | .last before item after, h, depth, r => by
      rw [Items.text, List.append_assoc, List.append_assoc, skipArray_gap h.1,
        skipArray_value h.2.1, skipArray_gap h.2.2]
  | .more before item after rest, h, depth, r => by
      rw [Items.text, List.append_assoc, List.append_assoc, List.append_assoc, skipArray_gap h.1,
        skipArray_value h.2.1, skipArray_gap h.2.2.1, List.cons_append,
        skipArray_byte (by decide), skipArray_items h.2.2.2]

theorem skipArray_members : ∀ {members : Members}, members.Valid → ∀ (depth : Nat) (r : Bytes),
    skipArray false (depth + 1) (members.text ++ r) = skipArray false (depth + 1) r
  | .last key value after, h, depth, r => by
      rw [Members.text, List.append_assoc, List.append_assoc, skipArray_key h.1,
        skipArray_value h.2.1, skipArray_gap h.2.2]
  | .more key value after rest, h, depth, r => by
      rw [Members.text, List.append_assoc, List.append_assoc, List.append_assoc, skipArray_key h.1,
        skipArray_value h.2.1, skipArray_gap h.2.2.1, List.cons_append,
        skipArray_byte (by decide), skipArray_members h.2.2.2]

end

theorem skipArray_close (r : Bytes) : skipArray false 1 (ch ']' :: r) = r := by
  rw [skipArray.eq_def]
  dsimp only
  rw [if_neg (by decide), if_pos rfl, skipArray.eq_def]

/-! ## The walk -/

section Walk

variable {stale pre : Bytes} {fuel : Nat} {fa fa' : List DerivedField}

def exampleOf (stale : Bytes) : Json → Bytes
  | .string body => body
  | .number text => text
  | .word .null => []
  | .word _ => stale
  | _ => []

def fieldOf (stale : Bytes) (m : List Bytes × Json) : DerivedField :=
  faAdd (walkedKey m.1) (inferredType m.2) (exampleOf stale m.2) (!isNull m.2)

def PathsShort (ms : List (List Bytes × Json)) : Prop :=
  ∀ m ∈ ms, (dottedPath m.1).length < 1024

theorem deriveValue_gap {ws : Bytes} (hws : IsGap ws) (s : Bytes) :
    deriveValue stale fuel pre (ws ++ s) fa = deriveValue stale fuel pre s fa := by
  cases fuel with
  | zero => rfl
  | succ fuel =>
      rw [deriveValue.eq_def, deriveValue.eq_def]
      dsimp only [nextStok]
      rw [nextToken_gap hws]

theorem deriveObject_member {key : MemberKey} (hkey : key.Valid) {s p q : Bytes}
    (hvalue : deriveValue stale fuel (fullKey pre key.body) s fa = .ok (p, fa')) :
    (nextStok p = (.rbrace, q) →
      deriveObject stale (fuel + 1) pre (key.text ++ s) fa = .ok (q, fa')) ∧
    (nextStok p = (.comma, q) →
      deriveObject stale (fuel + 1) pre (key.text ++ s) fa = deriveObject stale fuel pre q fa') := by
  obtain ⟨t, hname, hcolon⟩ := nextToken_key hkey s
  have hturn : deriveValue stale fuel (fullKey pre key.body) (key.afterColon ++ s) fa =
      .ok (p, fa') := by rw [deriveValue_gap hkey.afterColon, hvalue]
  rw [deriveObject.eq_def]
  dsimp only [nextStok]
  rw [hname]
  dsimp only
  rw [hcolon]
  dsimp only
  rw [hturn]
  dsimp only
  constructor
  · intro hclose
    rw [hclose]
  · intro hcomma
    rw [hcomma]

theorem PathsShort.key {path : List Bytes} {key : MemberKey} (hkey : key.Valid)
    (h : (dottedPath (path ++ [key.body])).length < 1024) :
    fullKey (walkedKey path) key.body = walkedKey (path ++ [key.body]) := by
  rw [walkedKey_concat]
  apply fullKey_eq (zero_not_mem_body hkey.body)
  rw [← walkedKey_concat]
  exact (length_walkedKey _).trans_lt h

mutual

theorem deriveValue_text : ∀ (v : Json), v.Valid → ∀ {fuel : Nat} {path : List Bytes} {r : Bytes},
    v.text.length ≤ fuel → EndsNumber r → PathsShort (valueMembers path v) →
      ∀ fa, deriveValue stale fuel (walkedKey path) (v.text ++ r) fa =
        .ok (r, fa ++ fieldOf stale (path, v) :: (valueMembers path v).map (fieldOf stale))
  | v, h, fuel, path, r, hfuel, hr, hshort, fa => by
      obtain ⟨fuel, rfl⟩ : ∃ n, fuel = n + 1 :=
        ⟨fuel - 1, by have := Json.length_text_pos h; omega⟩
      rw [deriveValue.eq_def]
      dsimp only [nextStok]
      match v with
      | .string body =>
          have htoken : nextToken ((Json.string body).text ++ r) = (.string body, r) := by
            rw [Json.text, List.cons_append, List.append_assoc]
            exact nextToken_string h r
          rw [htoken]
          rfl
      | .number text =>
          have hnull : isNull (.number text) = false := by
            rw [isNull, decide_eq_false_iff_not, inferredType]
            split <;> decide
          rw [Json.text, nextToken_number h hr, fieldOf, hnull]
          rfl
      | .word w =>
          rw [Json.text, nextToken_word]
          cases w <;> rfl
      | .emptyArray ws =>
          have htoken : nextToken ((Json.emptyArray ws).text ++ r) =
              (.lbracket, ws ++ ch ']' :: r) := by
            rw [Json.text, List.cons_append, List.append_assoc]
            rfl
          rw [htoken]
          dsimp only
          rw [skipArray_gap h, skipArray_close]
          rfl
      | .array items =>
          have htoken : nextToken ((Json.array items).text ++ r) =
              (.lbracket, items.text ++ ch ']' :: r) := by
            rw [Json.text, List.cons_append, List.append_assoc]
            rfl
          rw [htoken]
          dsimp only
          rw [skipArray_items h, skipArray_close]
          rfl
      | .emptyObject ws =>
          have htoken : nextToken ((Json.emptyObject ws).text ++ r) =
              (.lbrace, ws ++ ch '\x7d' :: r) := by
            rw [Json.text, List.cons_append, List.append_assoc]
            rfl
          rw [Json.text, List.length_cons, List.length_append, List.length_singleton] at hfuel
          obtain ⟨fuel, rfl⟩ : ∃ n, fuel = n + 1 := ⟨fuel - 1, by omega⟩
          rw [htoken]
          dsimp only
          rw [deriveObject.eq_def]
          dsimp only [nextStok]
          rw [nextToken_close h rfl]
          rfl
      | .object members =>
          have htoken : nextToken ((Json.object members).text ++ r) =
              (.lbrace, members.text ++ ch '\x7d' :: r) := by
            rw [Json.text, List.cons_append, List.append_assoc]
            rfl
          rw [Json.text, List.length_cons, List.length_append, List.length_singleton] at hfuel
          rw [htoken]
          dsimp only
          rw [deriveObject_text members h (by omega) hshort, List.append_assoc]
          rfl

theorem deriveObject_text : ∀ (members : Members), members.Valid →
    ∀ {fuel : Nat} {path : List Bytes} {r : Bytes}, members.text.length < fuel →
      PathsShort (memberPaths path members) → ∀ fa,
        deriveObject stale fuel (walkedKey path) (members.text ++ ch '\x7d' :: r) fa =
          .ok (r, fa ++ (memberPaths path members).map (fieldOf stale))
  | .last key value after, h, fuel, path, r, hfuel, hshort, fa => by
      obtain ⟨fuel, rfl⟩ : ∃ n, fuel = n + 1 := ⟨fuel - 1, by omega⟩
      obtain ⟨hfirst, hbelow⟩ := List.forall_mem_cons.mp hshort
      simp only [Members.text, List.length_append] at hfuel
      have hvalue := @deriveValue_text value h.2.1 fuel _ _ (by omega)
        (EndsNumber.gap h.2.2 (c := ch '\x7d') (by decide) r) hbelow fa
      rw [← PathsShort.key h.1 hfirst] at hvalue
      rw [Members.text, List.append_assoc, List.append_assoc]
      exact (deriveObject_member h.1 hvalue).1 (nextToken_close h.2.2 rfl)
  | .more key value after rest, h, fuel, path, r, hfuel, hshort, fa => by
      obtain ⟨fuel, rfl⟩ : ∃ n, fuel = n + 1 := ⟨fuel - 1, by omega⟩
      rw [memberPaths, List.cons_append] at hshort
      obtain ⟨hfirst, hothers⟩ := List.forall_mem_cons.mp hshort
      obtain ⟨hbelow, hrest⟩ := List.forall_mem_append.mp hothers
      simp only [Members.text, List.length_append, List.length_cons] at hfuel
      have hvalue := @deriveValue_text value h.2.1 fuel _ _ (by omega)
        (EndsNumber.gap h.2.2.1 (c := ch ',') (by decide) (rest.text ++ ch '\x7d' :: r)) hbelow fa
      rw [← PathsShort.key h.1 hfirst] at hvalue
      rw [Members.text, List.append_assoc, List.append_assoc, List.append_assoc, List.cons_append,
        (deriveObject_member h.1 hvalue).2 (nextToken_close h.2.2.1 rfl),
        deriveObject_text rest h.2.2.2 (by omega) hrest, memberPaths]
      simp

end

end Walk

/-! ## The members -/

theorem isBody_dottedPath {path : List Bytes} (h : ∀ k ∈ path, IsBody k) :
    IsBody (dottedPath path) := by
  cases path with
  | nil => exact .nil
  | cons key path =>
      obtain ⟨hkey, hrest⟩ := List.forall_mem_cons.mp h
      rw [dottedPath_cons]
      apply hkey.append
      clear h hkey
      induction path with
      | nil => exact .nil
      | cons k path ih =>
          obtain ⟨hk, hpath⟩ := List.forall_mem_cons.mp hrest
          rw [List.flatMap_cons, List.append_assoc]
          exact (isBody_of_plain (by decide)).append (hk.append (ih hpath))

theorem isBody_joinKey {pre key : Bytes} (hpre : IsBody pre) (hkey : IsBody key) :
    IsBody (joinKey pre key) := by
  unfold joinKey
  split
  · exact hkey
  · rw [List.append_assoc]
    exact hpre.append ((isBody_of_plain (by decide)).append hkey)

theorem isBody_walkedKey {path : List Bytes} (h : ∀ k ∈ path, IsBody k) :
    IsBody (walkedKey path) := by
  induction path using List.reverseRecOn with
  | nil => exact .nil
  | append_singleton path key ih =>
      rw [walkedKey_concat]
      exact isBody_joinKey (ih fun k hk => h k (List.mem_append_left _ hk))
        (h key (List.mem_append_right _ List.mem_cons_self))

def KeysBodies (m : List Bytes × Json) : Prop := ∀ k ∈ m.1, IsBody k

mutual

theorem valueMembers_bodies : ∀ (v : Json), v.Valid → ∀ {path : List Bytes},
    (∀ k ∈ path, IsBody k) → ∀ m ∈ valueMembers path v, KeysBodies m
  | .object members, h, _, hpath => memberPaths_bodies members h hpath
  | .string _, _, _, _ => List.forall_mem_nil _
  | .number _, _, _, _ => List.forall_mem_nil _
  | .word _, _, _, _ => List.forall_mem_nil _
  | .emptyArray _, _, _, _ => List.forall_mem_nil _
  | .array _, _, _, _ => List.forall_mem_nil _
  | .emptyObject _, _, _, _ => List.forall_mem_nil _

theorem memberPaths_bodies : ∀ (members : Members), members.Valid → ∀ {path : List Bytes},
    (∀ k ∈ path, IsBody k) → ∀ m ∈ memberPaths path members, KeysBodies m
  | .last key value after, h, path, hpath => by
      have hkey : ∀ k ∈ path ++ [key.body], IsBody k :=
        List.forall_mem_append.mpr ⟨hpath, by simpa using h.1.body⟩
      rw [memberPaths, List.forall_mem_cons]
      exact ⟨hkey, valueMembers_bodies value h.2.1 hkey⟩
  | .more key value after rest, h, path, hpath => by
      have hkey : ∀ k ∈ path ++ [key.body], IsBody k :=
        List.forall_mem_append.mpr ⟨hpath, by simpa using h.1.body⟩
      rw [memberPaths, List.cons_append, List.forall_mem_cons, List.forall_mem_append]
      exact ⟨hkey, valueMembers_bodies value h.2.1 hkey, memberPaths_bodies rest h.2.2.2 hpath⟩

end

theorem key_fieldOf (stale : Bytes) {m : List Bytes × Json} (hm : KeysBodies m) :
    (fieldOf stale m).key = walkedKey m.1 :=
  cstr_eq_self (zero_not_mem_body (isBody_walkedKey hm))

theorem fields_fieldOf_iff (stale : Bytes) {ms : List (List Bytes × Json)}
    (hms : ∀ m ∈ ms, KeysBodies m) :
    ((ms.map (fieldOf stale)).map fun f => (f.key, f.type)) =
        ms.map (fun m => (dottedPath m.1, inferredType m.2)) ↔
      ∀ m ∈ ms, m.1.length ≤ 1 ∨ m.1.head? ≠ some [] := by
  rw [List.map_map, List.map_inj_left]
  refine forall₂_congr fun m hm => ?_
  rw [Function.comp_apply, key_fieldOf stale (hms m hm), Prod.mk.injEq, walkedKey_eq_iff]
  exact and_iff_left rfl

/-! ## The text of the schema -/

def leafLine (leaf : Bytes × Json) (comma : Bool) : Bytes :=
  ascii "    \"" ++ leaf.1 ++ ascii "\": \x7b \"type\": \"" ++
    jsonschemaType (inferredType leaf.2) ++ ascii "\" \x7d" ++
    (if comma then ascii "," else []) ++ ascii "\n"

def leafLines : List (Bytes × Json) → List Bytes
  | [] => []
  | leaf :: leaves => leafLine leaf (!leaves.isEmpty) :: leafLines leaves

def leafKeys : Bool → List (Bytes × Json) → List Bytes
  | _, [] => []
  | first, leaf :: leaves =>
      ((if first then [] else ascii ", ") ++ ascii "\"" ++ leaf.1 ++ ascii "\"") ::
        leafKeys false leaves

def requiredLeaves (leaves : List (Bytes × Json)) : List (Bytes × Json) :=
  leaves.filter fun l => !isNull l.2

def schemaText (leaves : List (Bytes × Json)) : Bytes :=
  schemaHeader ++ (leafLines leaves).flatten ++ schemaMiddle ++
    (leafKeys true (requiredLeaves leaves)).flatten ++ schemaEnd

def leafMember (leaf : Bytes × Json) : Bytes × Json :=
  (leaf.1, .object (looseMembers (ascii " ") (ascii " ") (ascii " ")
    (ascii "type", .string (jsonschemaType (inferredType leaf.2))) []))

def propertiesJson : List (Bytes × Json) → Json
  | [] => .emptyObject (ascii "\n  ")
  | leaf :: leaves =>
      .object (looseMembers (ascii "\n    ") (ascii " ") (ascii "\n  ") (leafMember leaf)
        (leaves.map leafMember))

def schemaJson (leaves : List (Bytes × Json)) : Json :=
  .object (looseMembers (ascii "\n  ") (ascii " ") (ascii "\n")
    (ascii "$schema", .string (ascii "http://json-schema.org/draft-07/schema#"))
    [(ascii "type", .string (ascii "object")), (ascii "properties", propertiesJson leaves),
      (ascii "required", spacedArray [] (ascii " ") []
        ((requiredLeaves leaves).map fun l => .string l.1))])

theorem text_leafMember (leaf : Bytes × Json) (comma : Bool) :
    leafLine leaf comma = ascii "    " ++ looseMember (ascii " ") (leafMember leaf) ++
      (if comma then ascii "," else []) ++ ascii "\n" := by
  rw [leafMember, looseMember, Json.text, text_looseMembers, leafLine]
  simp only [List.map_cons, List.map_nil, List.intercalate_singleton, looseMember, Json.text,
    List.append_assoc, List.cons_append, List.nil_append]
  rfl

theorem flatten_leafLines (leaf : Bytes × Json) (leaves : List (Bytes × Json)) :
    ascii "\n" ++ (leafLines (leaf :: leaves)).flatten =
      [ch ','].intercalate ((leaf :: leaves).map fun l =>
        ascii "\n    " ++ looseMember (ascii " ") (leafMember l)) ++ ascii "\n" := by
  induction leaves generalizing leaf with
  | nil =>
      rw [leafLines, leafLines, text_leafMember]
      simp only [List.map_cons, List.map_nil, List.intercalate_singleton, List.flatten_singleton,
        List.isEmpty_nil, Bool.not_true, List.append_assoc]
      rfl
  | cons l leaves ih =>
      have hline : ascii "\n" ++ leafLine leaf true =
          ascii "\n    " ++ looseMember (ascii " ") (leafMember leaf) ++ [ch ','] ++ ascii "\n" := by
        rw [text_leafMember, List.append_assoc, List.append_assoc, List.append_assoc,
          List.append_assoc]
        rfl
      rw [leafLines, List.flatten_cons, ← List.append_assoc]
      rw [show leafLine leaf (!(l :: leaves).isEmpty) = leafLine leaf true from rfl, hline,
        List.append_assoc, ih]
      simp only [List.map_cons, List.intercalate_cons_cons, List.append_assoc]

theorem flatten_leafKeys (leaf : Bytes × Json) (leaves : List (Bytes × Json)) :
    (leafKeys true (leaf :: leaves)).flatten =
      (Json.string leaf.1).text ++
        (leaves.map fun l => Json.string l.1).flatMap fun v => ch ',' :: (ascii " " ++ v.text) := by
  have hrest : (leafKeys false leaves).flatten =
      (leaves.map fun l => Json.string l.1).flatMap fun v => ch ',' :: (ascii " " ++ v.text) := by
    induction leaves with
    | nil => rfl
    | cons l leaves ih =>
        rw [leafKeys, List.flatten_cons, ih, List.map_cons, List.flatMap_cons, Json.text]
        simp only [List.append_assoc, List.cons_append]
        rfl
  rw [leafKeys, List.flatten_cons, hrest, Json.text]
  rfl

theorem text_propertiesJson (leaves : List (Bytes × Json)) :
    ascii "\x7b\n" ++ (leafLines leaves).flatten ++ ascii "  \x7d" =
      (propertiesJson leaves).text := by
  cases leaves with
  | nil => rfl
  | cons leaf leaves =>
      have hopen : ascii "\x7b\n" = ch '\x7b' :: ascii "\n" := rfl
      have hclose : ascii "\n" ++ ascii "  \x7d" = ascii "\n  " ++ [ch '\x7d'] := rfl
      rw [propertiesJson, Json.text, text_looseMembers, hopen, List.cons_append, flatten_leafLines,
        List.cons_append, List.append_assoc, hclose, ← List.append_assoc, List.map_cons,
        List.map_cons, List.map_map]
      rfl

theorem text_schemaJson (leaves : List (Bytes × Json)) :
    schemaText leaves = (schemaJson leaves).text ++ ascii "\n" := by
  have hkeys : ascii "[" ++ (leafKeys true (requiredLeaves leaves)).flatten ++ ascii "]" =
      (spacedArray [] (ascii " ") [] ((requiredLeaves leaves).map fun l => .string l.1)).text := by
    cases requiredLeaves leaves with
    | nil => rfl
    | cons leaf leaves =>
        have hitems : ∀ items : Items, (Json.array items).text =
            ch '[' :: (items.text ++ [ch ']']) := fun _ => rfl
        rw [flatten_leafKeys, List.map_cons, spacedArray, hitems, text_spacedItems]
        simp only [List.append_nil, List.nil_append]
        rfl
  rw [schemaJson, Json.text, text_looseMembers]
  simp only [List.map_cons, List.map_nil, looseMember, Json.text, List.intercalate_cons_cons,
    List.intercalate_singleton, ← text_propertiesJson, ← hkeys, schemaText, schemaHeader,
    schemaMiddle, schemaEnd, List.append_assoc, List.cons_append, List.nil_append]
  rfl

theorem isBody_jsonschemaType (t : DerivedType) : IsBody (jsonschemaType t) := by
  cases t <;> exact isBody_of_plain (by decide)

theorem decode_jsonschemaType (t : DerivedType) : decode (jsonschemaType t) = jsonschemaType t := by
  cases t <;> exact decode_of_not_mem (by decide)

theorem isGap_space : IsGap (ascii " ") := by decide

theorem valid_schemaJson {leaves : List (Bytes × Json)} (h : ∀ l ∈ leaves, IsBody l.1) :
    (schemaJson leaves).Valid := by
  have hmember : ∀ l ∈ leaves, IsBody (leafMember l).1 ∧ (leafMember l).2.Valid := by
    intro l hl
    refine ⟨h l hl, valid_looseMembers isGap_space isGap_space isGap_space ?_⟩
    have htype : IsBody (ascii "type") := isBody_of_plain (by decide)
    rw [List.forall_mem_singleton]
    exact ⟨htype, isBody_jsonschemaType _⟩
  have hproperties : (propertiesJson leaves).Valid := by
    cases leaves with
    | nil => exact (by decide : IsGap (ascii "\n  "))
    | cons leaf leaves =>
        apply valid_looseMembers (by decide) isGap_space (by decide)
        rw [← List.map_cons]
        intro m hm
        obtain ⟨l, hl, rfl⟩ := List.mem_map.mp hm
        exact hmember l hl
  have hrequired : (spacedArray [] (ascii " ") []
      ((requiredLeaves leaves).map fun l => Json.string l.1)).Valid := by
    have hstrings : ∀ v ∈ (requiredLeaves leaves).map fun l => Json.string l.1, v.Valid := by
      intro v hv
      obtain ⟨l, hl, rfl⟩ := List.mem_map.mp hv
      exact h l (List.mem_of_mem_filter hl)
    revert hstrings
    cases (requiredLeaves leaves).map fun l => Json.string l.1 with
    | nil => exact fun _ => IsGap.nil
    | cons v vs => exact valid_spacedItems .nil isGap_space .nil
  apply valid_looseMembers (by decide) isGap_space (by decide)
  simp only [List.forall_mem_cons]
  exact ⟨⟨isBody_of_plain (by decide), isBody_of_plain (by decide)⟩,
    ⟨isBody_of_plain (by decide), isBody_of_plain (by decide)⟩,
    ⟨isBody_of_plain (by decide), hproperties⟩,
    ⟨isBody_of_plain (by decide), hrequired⟩, List.forall_mem_nil _⟩

theorem tree_schemaJson (leaves : List (Bytes × Json)) :
    (schemaJson leaves).tree = schemaTree leaves := by
  have hplain : ∀ s : Bytes, ch '\\' ∉ s → decode s = s := fun _ => decode_of_not_mem
  have hmember : ∀ l, (decode (leafMember l).1, (leafMember l).2.tree) = propertyTree l := by
    intro l
    rw [leafMember, Json.tree, fields_looseMembers]
    simp only [List.map_cons, List.map_nil, Json.tree, decode_jsonschemaType]
    rw [hplain (ascii "type") (by decide)]
    rfl
  have hproperties : (propertiesJson leaves).tree =
      .object (Fields.ofList (leaves.map propertyTree)) := by
    cases leaves with
    | nil => rfl
    | cons leaf leaves =>
        rw [propertiesJson, Json.tree, fields_looseMembers, ← List.map_cons, List.map_map]
        exact congrArg (fun ms => Tree.object (Fields.ofList ms))
          (List.map_congr_left fun l _ => hmember l)
  have hrequired : (spacedArray [] (ascii " ") []
      ((requiredLeaves leaves).map fun l => Json.string l.1)).tree =
        .array (Trees.ofList ((requiredLeaves leaves).map fun l => .string (decode l.1))) := by
    cases requiredLeaves leaves with
    | nil => rfl
    | cons l ls =>
        have harray : ∀ items : Items, (Json.array items).tree = .array items.trees := fun _ => rfl
        rw [List.map_cons, spacedArray, harray, trees_spacedItems, List.map_cons, List.map_cons,
          List.map_map]
        rfl
  rw [schemaJson, Json.tree, fields_looseMembers, schemaTree]
  simp only [List.map_cons, List.map_nil, Json.tree, hproperties, hrequired]
  rw [hplain (ascii "$schema") (by decide),
    hplain (ascii "http://json-schema.org/draft-07/schema#") (by decide),
    hplain (ascii "type") (by decide),
    hplain (ascii "object") (by decide),
    hplain (ascii "properties") (by decide),
    hplain (ascii "required") (by decide)]
  rfl

theorem length_flatten_leafLines (leaves : List (Bytes × Json)) :
    (leafLines leaves).flatten.length + (if leaves = [] then 0 else 1) =
      (leaves.map fun l => l.1.length + (jsonschemaType (inferredType l.2)).length + 24).sum := by
  have hline : ∀ leaf comma, (leafLine leaf comma).length =
      leaf.1.length + (jsonschemaType (inferredType leaf.2)).length + if comma then 24 else 23 := by
    intro leaf comma
    have hparts : (ascii "    \"").length = 5 ∧ (ascii "\": \x7b \"type\": \"").length = 14 ∧
        (ascii "\" \x7d").length = 3 ∧ (ascii "\n").length = 1 := by decide
    have hcomma : (if comma then ascii "," else []).length = if comma then 1 else 0 := by
      cases comma <;> rfl
    obtain ⟨h₁, h₂, h₃, h₄⟩ := hparts
    simp only [leafLine, List.length_append, h₁, h₂, h₃, h₄, hcomma]
    split <;> omega
  induction leaves with
  | nil => rfl
  | cons leaf leaves ih =>
      rw [leafLines, List.flatten_cons, List.length_append, hline, List.map_cons, List.sum_cons,
        ← ih]
      cases leaves with
      | nil => rfl
      | cons l leaves =>
          simp only [List.isEmpty_cons, Bool.not_false, reduceCtorEq, if_false, if_true]
          omega

theorem length_flatten_leafKeys (leaves : List (Bytes × Json)) :
    (leafKeys true leaves).flatten.length + (if leaves = [] then 0 else 2) =
      (leaves.map fun l => l.1.length + 4).sum := by
  have hquotes : (ascii "\"").length = 1 ∧ (ascii ", ").length = 2 := by decide
  have hrest : ∀ ls : List (Bytes × Json), (leafKeys false ls).flatten.length =
      (ls.map fun l => l.1.length + 4).sum := by
    intro ls
    induction ls with
    | nil => rfl
    | cons l ls ih =>
        simp only [leafKeys, List.flatten_cons, List.length_append, ih, List.map_cons,
          List.sum_cons, Bool.false_eq_true, if_false, hquotes.1, hquotes.2]
        omega
  cases leaves with
  | nil => rfl
  | cons l ls =>
      simp only [leafKeys, List.flatten_cons, List.length_append, hrest, List.map_cons,
        List.sum_cons, reduceCtorEq, if_false, if_true, List.length_nil, hquotes.1]
      omega

theorem length_schemaText (leaves : List (Bytes × Json)) :
    (schemaText leaves).length = schemaSize leaves := by
  have hconst : schemaHeader.length + schemaMiddle.length + schemaEnd.length = 120 := by decide
  have hlines := length_flatten_leafLines leaves
  have hkeys := length_flatten_leafKeys (requiredLeaves leaves)
  simp only [schemaText, List.length_append, schemaSize]
  rw [requiredLeaves] at hkeys ⊢
  omega

/-! ## The lines that are printed -/

section Lines

variable {stale : Bytes} {ms : List (List Bytes × Json)}

def leafOf (m : List Bytes × Json) : Bytes × Json := (dottedPath m.1, m.2)

def leavesOf (ms : List (List Bytes × Json)) : List (Bytes × Json) :=
  (ms.filter fun m => isScalar m.2).map leafOf

theorem isContainer_fieldOf (m : List Bytes × Json) :
    (fieldOf stale m).isContainer = !isScalar m.2 := by
  have htype : (fieldOf stale m).type = inferredType m.2 := rfl
  rw [DerivedField.isContainer, htype, isScalar]
  cases inferredType m.2 <;> rfl

theorem propertyLine_fieldOf {m : List Bytes × Json}
    (hname : (fieldOf stale m).key = dottedPath m.1) (comma : Bool) :
    propertyLine (fieldOf stale m) comma = leafLine (leafOf m) comma := by
  rw [propertyLine, hname]
  rfl

theorem propertyLines_cons {m : List Bytes × Json}
    (hname : (fieldOf stale m).key = dottedPath m.1) (ms : List (List Bytes × Json)) :
    propertyLines ((m :: ms).map (fieldOf stale)) =
      (if isScalar m.2 then [leafLine (leafOf m) (!ms.isEmpty)] else []) ++
        propertyLines (ms.map (fieldOf stale)) := by
  rw [List.map_cons, propertyLines, isContainer_fieldOf, propertyLine_fieldOf hname,
    List.isEmpty_map]
  cases isScalar m.2 <;> rfl

theorem leavesOf_cons (m : List Bytes × Json) (ms : List (List Bytes × Json)) :
    leavesOf (m :: ms) = (if isScalar m.2 then [leafOf m] else []) ++ leavesOf ms := by
  rw [leavesOf, List.filter_cons]
  cases isScalar m.2 <;> rfl

theorem propertyLines_good (hnames : ∀ m ∈ ms, (fieldOf stale m).key = dottedPath m.1)
    (hlast : ∀ m ∈ ms.getLast?, isScalar m.2) :
    propertyLines (ms.map (fieldOf stale)) = leafLines (leavesOf ms) := by
  induction ms with
  | nil => rfl
  | cons m ms ih =>
      obtain ⟨hname, hrest⟩ := List.forall_mem_cons.mp hnames
      rw [propertyLines_cons hname, leavesOf_cons]
      cases ms with
      | nil =>
          rw [if_pos (hlast m rfl), if_pos (hlast m rfl)]
          rfl
      | cons m' ms =>
          have hlast' : ∀ m ∈ (m' :: ms).getLast?, isScalar m.2 := hlast
          rw [ih hrest hlast']
          have hne : leavesOf (m' :: ms) ≠ [] := by
            obtain ⟨x, hx⟩ : ∃ x, (m' :: ms).getLast? = some x :=
              ⟨_, List.getLast?_eq_some_getLast (List.cons_ne_nil m' ms)⟩
            have hmem : leafOf x ∈ leavesOf (m' :: ms) :=
              List.mem_map_of_mem (List.mem_filter.mpr ⟨List.mem_of_getLast? hx, hlast' x hx⟩)
            exact List.ne_nil_of_mem hmem
          cases isScalar m.2 with
          | false => rfl
          | true =>
              obtain ⟨l, ls, hls⟩ := List.exists_cons_of_ne_nil hne
              rw [hls]
              rfl

theorem propertyLines_commas (hnames : ∀ m ∈ ms, (fieldOf stale m).key = dottedPath m.1)
    {x : List Bytes × Json} (hlast : ms.getLast? = some x) (hx : isScalar x.2 = false) :
    propertyLines (ms.map (fieldOf stale)) = (leavesOf ms).map fun l => leafLine l true := by
  induction ms with
  | nil => rfl
  | cons m ms ih =>
      obtain ⟨hname, hrest⟩ := List.forall_mem_cons.mp hnames
      rw [propertyLines_cons hname, leavesOf_cons]
      cases ms with
      | nil =>
          obtain rfl : m = x := Option.some.inj hlast
          rw [hx]
          rfl
      | cons m' ms =>
          rw [ih hrest hlast]
          cases isScalar m.2 <;> rfl

theorem requiredKeys_map (hnames : ∀ m ∈ ms, (fieldOf stale m).key = dottedPath m.1)
    (first : Bool) :
    requiredKeys first (ms.map (fieldOf stale)) =
      leafKeys first (requiredLeaves (leavesOf ms)) := by
  induction ms generalizing first with
  | nil => rfl
  | cons m ms ih =>
      obtain ⟨hname, hrest⟩ := List.forall_mem_cons.mp hnames
      have hrequired : (fieldOf stale m).isRequired = !isNull m.2 := rfl
      have happend : ∀ ls ls', requiredLeaves (ls ++ ls') = requiredLeaves ls ++ requiredLeaves ls' :=
        fun _ _ => List.filter_append ..
      have hone : requiredLeaves [leafOf m] = if !isNull m.2 then [leafOf m] else [] :=
        List.filter_cons ..
      rw [List.map_cons, requiredKeys, isContainer_fieldOf, hrequired, Bool.not_not, ih hrest,
        ih hrest, leavesOf_cons, happend, hname]
      cases isScalar m.2 with
      | false =>
          rw [Bool.and_false]
          rfl
      | true =>
          rw [Bool.and_true, if_pos rfl, hone]
          cases isNull m.2 <;> rfl

end Lines

/-! ## The buffer -/

theorem schemaCap_le : schemaCap ≤ maxPrinted := by decide

theorem schemaCap_pos : 0 < schemaCap := by decide

theorem stands_printLines {b : PrintBuffer} {t : Bytes} (h : Stands schemaCap b t)
    (hlt : t.length < schemaCap) {lines : List Bytes}
    (hcount : ∀ x ∈ lines, x.length ≤ maxPrinted) :
    ∃ k ≤ lines.length, Stands schemaCap (printLines b lines) (t ++ (lines.take k).flatten) ∧
      (t ++ (lines.take k).flatten).length < schemaCap ∧
        (k < lines.length → schemaCap ≤ (t ++ (lines.take (k + 1)).flatten).length) := by
  induction lines generalizing b t with
  | nil =>
      refine ⟨0, Nat.le_refl 0, ?_, by simpa using hlt, fun h => absurd h (Nat.lt_irrefl 0)⟩
      simpa [printLines] using h
  | cons line lines ih =>
      obtain ⟨hline, hrest⟩ := List.forall_mem_cons.mp hcount
      have hcap : schemaCap = 4096 := rfl
      have hleft : sizeLeft schemaCap b.len = schemaCap - t.length := by
        rw [sizeLeft, h.len]
        omega
      rw [printLines]
      by_cases hfits : schemaCap ≤ t.length + line.length
      · rw [if_pos (Or.inr (by omega))]
        refine ⟨0, Nat.zero_le _, ?_, ?_, fun _ => ?_⟩
        · rw [List.take_zero, List.flatten_nil, List.append_nil]
          exact h.uncounted schemaCap_le hlt line
        · rw [List.take_zero, List.flatten_nil, List.append_nil]
          exact hlt
        · rw [List.take_succ_cons, List.take_zero, List.flatten_singleton, List.length_append]
          exact hfits
      · rw [if_neg (by omega)]
        obtain ⟨k, hk, hstands, hshort, hmore⟩ :=
          ih (h.print schemaCap_le hlt.le hline) (by rw [List.length_append]; omega) hrest
        rw [List.append_assoc] at hstands hshort
        refine ⟨k + 1, Nat.succ_le_succ hk, ?_, ?_, fun hlt => ?_⟩
        · rwa [List.take_succ_cons, List.flatten_cons]
        · rwa [List.take_succ_cons, List.flatten_cons]
        · have hnext := hmore (Nat.lt_of_succ_lt_succ hlt)
          rwa [List.append_assoc] at hnext

section Generated

variable {fa : List DerivedField}

def schemaTail (fa : List DerivedField) : List Bytes := schemaMiddle :: requiredKeys true fa

theorem stands_header :
    Stands schemaCap (PrintBuffer.print schemaCap {} schemaHeader) schemaHeader :=
  (stands_nil schemaCap_pos).print schemaCap_le (Nat.zero_le _) (by decide)

/-- **Any fields**: when no write leaves the buffer, the schema is the header, the lines up to
the first one that does not fit, and the rest, as far as it fits. -/
theorem text_generated (hlines : ∀ x ∈ propertyLines fa, x.length ≤ maxPrinted)
    (hkeys : ∀ x ∈ requiredKeys true fa, x.length ≤ maxPrinted)
    (hinside : (generateJsonschema fa).overrun = false) :
    ∃ k ≤ (propertyLines fa).length,
      (k < (propertyLines fa).length →
        schemaCap ≤ (schemaHeader ++ ((propertyLines fa).take (k + 1)).flatten).length) ∧
      (schemaHeader ++ ((propertyLines fa).take k).flatten).length < schemaCap ∧
      (generateJsonschema fa).text schemaCap =
        cstr ((schemaHeader ++ ((propertyLines fa).take k).flatten ++
          (schemaTail fa ++ [schemaEnd]).flatten).take (schemaCap - 1)) := by
  obtain ⟨k, hk, hstands, hshort, hmore⟩ := stands_printLines stands_header (by decide) hlines
  have hend : schemaEnd.length ≤ maxPrinted := by decide
  obtain ⟨t, htext, -, hall⟩ := hstands.text_printAll schemaCap_pos schemaCap_le (by omega)
    (schemaTail fa) hend hinside
  refine ⟨k, hk, hmore, hshort, htext.trans ?_⟩
  rw [hall]
  exact List.forall_mem_cons.mpr ⟨by decide, hkeys⟩

theorem generated_fits (hlines : ∀ x ∈ propertyLines fa, x.length ≤ maxPrinted)
    (hfits : (schemaHeader ++ (propertyLines fa).flatten ++ (schemaTail fa).flatten).length ≤
      schemaCap) :
    (generateJsonschema fa).overrun = false ∧
      (generateJsonschema fa).text schemaCap =
        cstr ((schemaHeader ++ (propertyLines fa).flatten ++
          (schemaTail fa ++ [schemaEnd]).flatten).take (schemaCap - 1)) := by
  obtain ⟨k, hk, hstands, -, hmore⟩ := stands_printLines stands_header (by decide) hlines
  have hmiddle : 0 < schemaMiddle.length := by decide
  have hall : k = (propertyLines fa).length := by
    by_contra hne
    have hlong := hmore (by omega)
    have hle := ((List.take_sublist (k + 1) (propertyLines fa)).flatten).length_le
    simp only [schemaTail, List.flatten_cons, List.length_append] at hfits hlong
    omega
  rw [hall, List.take_length] at hstands
  exact hstands.printAll_ends schemaCap_pos schemaCap_le (schemaTail fa) (by decide) hfits

end Generated

/-! ## Outlines of cut texts -/

def Closed (text : Bytes) : Prop := TextScan.outside.after text = .outside

instance (text : Bytes) : Decidable (Closed text) := inferInstanceAs (Decidable (_ = _))

theorem Closed.append {a b : Bytes} (ha : Closed a) (hb : Closed b) : Closed (a ++ b) := by
  rw [Closed, TextScan.after_append, ha, hb]

theorem Closed.outline {a : Bytes} (ha : Closed a) (b : Bytes) :
    TextScan.outside.outline (a ++ b) =
      TextScan.outside.outline a ++ TextScan.outside.outline b := by
  rw [TextScan.outline_append, ha]

theorem marks_eq {shared s t x y : Bytes} {a b : UInt8} (hshared : Closed shared)
    (hs : TextScan.outside.outline s = a :: x) (ht : TextScan.outside.outline t = b :: y)
    {cut : Bytes} (hcut : cut <+: shared ++ t)
    (heq : TextScan.outside.outline cut = TextScan.outside.outline (shared ++ s)) : a = b := by
  have hprefix := TextScan.outline_prefix .outside hcut
  rw [heq, hshared.outline, hshared.outline, hs, ht, List.prefix_append_right_inj,
    List.cons_prefix_cons] at hprefix
  exact hprefix.1

def leafStart (leaf : Bytes × Json) : Bytes :=
  ascii "    " ++ looseMember (ascii " ") (leafMember leaf)

theorem leafLine_eq (leaf : Bytes × Json) (comma : Bool) :
    leafLine leaf comma = leafStart leaf ++ ((if comma then ascii "," else []) ++ ascii "\n") := by
  rw [text_leafMember, leafStart, List.append_assoc (_ ++ _)]

theorem closed_leafStart {leaf : Bytes × Json} (h : IsBody leaf.1) : Closed (leafStart leaf) := by
  have hmember : looseMember (ascii " ") (leafMember leaf) =
      MemberKey.text ⟨[], leaf.1, [], ascii " "⟩ ++ (leafMember leaf).2.text := by
    simp [looseMember, MemberKey.text, leafMember]
  have htype : IsBody (ascii "type") := isBody_of_plain (by decide)
  have hvalue : (leafMember leaf).2.Valid := by
    apply valid_looseMembers isGap_space isGap_space isGap_space
    rw [List.forall_mem_singleton]
    exact ⟨htype, isBody_jsonschemaType _⟩
  rw [leafStart, hmember]
  exact (by decide : Closed (ascii "    ")).append
    (Closed.append (MemberKey.scans ⟨.nil, h, .nil, isGap_space⟩).after (Json.scans hvalue).after)

theorem closed_leafLines {leaves : List (Bytes × Json)} (h : ∀ l ∈ leaves, IsBody l.1) :
    Closed (leaves.map fun l => leafLine l true).flatten := by
  induction leaves with
  | nil => rfl
  | cons leaf leaves ih =>
      obtain ⟨hleaf, hrest⟩ := List.forall_mem_cons.mp h
      rw [List.map_cons, List.flatten_cons, leafLine_eq]
      exact ((closed_leafStart hleaf).append (by decide)).append (ih hrest)

theorem leafLines_append (leaves : List (Bytes × Json)) {rest : List (Bytes × Json)}
    (hrest : rest ≠ []) :
    leafLines (leaves ++ rest) = (leaves.map fun l => leafLine l true) ++ leafLines rest := by
  induction leaves with
  | nil => rfl
  | cons leaf leaves ih =>
      have hmore : (leaves ++ rest).isEmpty = false := by simp [hrest]
      rw [List.cons_append, leafLines, ih, hmore]
      rfl

theorem length_leafLines (leaves : List (Bytes × Json)) :
    (leafLines leaves).length = leaves.length := by
  induction leaves with
  | nil => rfl
  | cons leaf leaves ih => rw [leafLines, List.length_cons, List.length_cons, ih]

theorem take_leafLines {leaves : List (Bytes × Json)} {k : Nat} (hk : k < leaves.length) :
    (leafLines leaves).take k = (leaves.take k).map fun l => leafLine l true := by
  have hrest : leaves.drop k ≠ [] := List.drop_eq_nil_iff.not.mpr (Nat.not_le.mpr hk)
  have hlines := leafLines_append (leaves.take k) hrest
  rw [List.take_append_drop] at hlines
  rw [hlines, List.take_left']
  rw [List.length_map, List.length_take]
  omega

theorem outline_tail (text : Bytes) :
    TextScan.outside.outline (schemaMiddle ++ text) =
      ch '\x7d' :: TextScan.outside.outline (ascii ",\n  \"required\": [" ++ text) := rfl

section Says

variable {leaves : List (Bytes × Json)} {text : Bytes}

theorem outline_schemaText (hbodies : ∀ l ∈ leaves, IsBody l.1)
    (hspells : Spells text (schemaTree leaves)) :
    TextScan.outside.outline text = TextScan.outside.outline (schemaText leaves) := by
  have hgap : IsGap (ascii "\n") := by decide
  have hjson := (Json.scans (valid_schemaJson hbodies)).append (Scans.gap hgap)
  rw [text_schemaJson, hjson.outline, List.append_nil, tree_schemaJson]
  exact hspells.outline

theorem closed_front (hbodies : ∀ l ∈ leaves, IsBody l.1) :
    Closed (schemaHeader ++ (leaves.map fun l => leafLine l true).flatten) :=
  Closed.append (by decide) (closed_leafLines hbodies)

theorem not_says_missing (hbodies : ∀ l ∈ leaves, IsBody l.1) {k : Nat} (hk : k < leaves.length)
    {tail : Bytes} (hcut : text <+: schemaHeader ++
      ((leaves.take k).map fun l => leafLine l true).flatten ++ (schemaMiddle ++ tail)) :
    ¬Spells text (schemaTree leaves) := by
  intro hspells
  have heq := outline_schemaText hbodies hspells
  obtain ⟨l, rest, hdrop⟩ : ∃ l rest, leaves.drop k = l :: rest :=
    ⟨_, _, List.drop_eq_getElem_cons hk⟩
  have hlines : leafLines leaves =
      ((leaves.take k).map fun l => leafLine l true) ++ leafLines (l :: rest) := by
    rw [← leafLines_append (leaves.take k) (List.cons_ne_nil l rest), ← hdrop, List.take_append_drop]
  have hquote : ∀ (comma : Bool) (s : Bytes), ∃ x,
      TextScan.outside.outline (leafLine l comma ++ s) = ch '"' :: x := by
    intro comma s
    simp only [leafLine, List.append_assoc]
    exact ⟨_, rfl⟩
  have htext : schemaText leaves =
      schemaHeader ++ ((leaves.take k).map fun l => leafLine l true).flatten ++
        (leafLine l (!rest.isEmpty) ++ ((leafLines rest).flatten ++ schemaMiddle ++
          (leafKeys true (requiredLeaves leaves)).flatten ++ schemaEnd)) := by
    rw [schemaText, hlines, List.flatten_append, leafLines, List.flatten_cons]
    simp only [List.append_assoc]
  obtain ⟨x, hx⟩ := hquote (!rest.isEmpty) ((leafLines rest).flatten ++ schemaMiddle ++
    (leafKeys true (requiredLeaves leaves)).flatten ++ schemaEnd)
  rw [htext] at heq
  have hfront := closed_front fun l hl => hbodies l (List.mem_of_mem_take (i := k) hl)
  exact absurd (marks_eq hfront hx (outline_tail tail) hcut heq) (by decide)

theorem not_says_comma (hbodies : ∀ l ∈ leaves, IsBody l.1) (hne : leaves ≠ []) {tail : Bytes}
    (hcut : text <+: schemaHeader ++ (leaves.map fun l => leafLine l true).flatten ++
      (schemaMiddle ++ tail)) : ¬Spells text (schemaTree leaves) := by
  intro hspells
  have heq := outline_schemaText hbodies hspells
  obtain ⟨front, l, hleaves⟩ : ∃ front l, leaves = front ++ [l] := by
    rcases List.eq_nil_or_concat leaves with hnil | ⟨front, l, hconcat⟩
    · exact absurd hnil hne
    · exact ⟨front, l, by rw [hconcat, List.concat_eq_append]⟩
  have hlast : IsBody l.1 := hbodies l (by rw [hleaves]; simp)
  have hfront : Closed (schemaHeader ++ (front.map fun l => leafLine l true).flatten ++
      leafStart l) :=
    (closed_front fun l hl => hbodies l (by rw [hleaves]; exact List.mem_append_left _ hl)).append
      (closed_leafStart hlast)
  have hgood : (leafLines leaves).flatten =
      (front.map fun l => leafLine l true).flatten ++ leafStart l ++ ascii "\n" := by
    rw [hleaves, leafLines_append front (List.cons_ne_nil l []), List.flatten_append,
      List.append_assoc]
    simp only [leafLines, leafLine_eq, List.flatten_singleton]
    rfl
  have hmany : (leaves.map fun l => leafLine l true).flatten =
      (front.map fun l => leafLine l true).flatten ++ leafStart l ++ ascii ",\n" := by
    rw [hleaves, List.map_append, List.flatten_append, List.append_assoc]
    simp only [List.map_cons, List.map_nil, leafLine_eq, List.flatten_singleton]
    rfl
  have htext : schemaText leaves =
      schemaHeader ++ (front.map fun l => leafLine l true).flatten ++ leafStart l ++
        (ascii "\n" ++ (schemaMiddle ++ ((leafKeys true (requiredLeaves leaves)).flatten ++
          schemaEnd))) := by
    rw [schemaText, hgood]
    simp only [List.append_assoc]
  have hcut' : text <+: schemaHeader ++ (front.map fun l => leafLine l true).flatten ++
      leafStart l ++ (ascii ",\n" ++ (schemaMiddle ++ tail)) := by
    rw [hmany] at hcut
    simp only [List.append_assoc] at hcut ⊢
    exact hcut
  have hbrace : ∀ s, TextScan.outside.outline (ascii "\n" ++ (schemaMiddle ++ s)) =
      ch '\x7d' :: TextScan.outside.outline (ascii ",\n  \"required\": [" ++ s) := outline_tail
  have hcomma : ∀ s, TextScan.outside.outline (ascii ",\n" ++ s) =
      ch ',' :: TextScan.outside.outline (ascii "\n" ++ s) := fun _ => rfl
  rw [htext] at heq
  exact absurd (marks_eq hfront (hbrace _) (hcomma _) hcut' heq) (by decide)

theorem not_says_short (hbodies : ∀ l ∈ leaves, IsBody l.1)
    (hlong : schemaCap < (schemaText leaves).length)
    (hcut : text <+: (schemaText leaves).take (schemaCap - 1)) :
    ¬Spells text (schemaTree leaves) := by
  intro hspells
  have heq := outline_schemaText hbodies hspells
  obtain ⟨members, hmembers, hvalid⟩ : ∃ members, schemaJson leaves = .object members ∧
      members.Valid := ⟨_, rfl, valid_schemaJson hbodies⟩
  have hbody : schemaText leaves = (ch '\x7b' :: members.text) ++ ascii "\x7d\n" := by
    rw [text_schemaJson, hmembers, Json.text, List.cons_append, List.append_assoc]
    rfl
  have hlen : (schemaText leaves).length = (ch '\x7b' :: members.text).length + 2 := by
    rw [hbody, List.length_append]
    rfl
  have hclosed : Closed (ch '\x7b' :: members.text) :=
    (Scans.cons (s := .outside) (c := ch '\x7b') rfl (Members.scans hvalid)).after
  rw [hbody, List.take_append_of_le_length (by omega)] at hcut
  have hle := (TextScan.outline_prefix .outside (hcut.trans (List.take_prefix _ _))).length_le
  rw [heq, hbody, hclosed.outline, List.length_append] at hle
  have hbrace : (TextScan.outside.outline (ascii "\x7d\n")).length = 1 := by decide
  omega

end Says

/-! ## The schema that is printed -/

section Printed

variable {stale : Bytes} {ms : List (List Bytes × Json)}

structure WellNamed (stale : Bytes) (m : List Bytes × Json) : Prop where
  name : (fieldOf stale m).key = dottedPath m.1
  body : IsBody (dottedPath m.1)
  short : (dottedPath m.1).length < 1024

theorem length_jsonschemaType (t : DerivedType) : (jsonschemaType t).length ≤ 7 := by
  cases t <;> decide

theorem mem_leavesOf {leaf : Bytes × Json} (h : leaf ∈ leavesOf ms) :
    ∃ m ∈ ms, leaf = leafOf m := by
  obtain ⟨m, hm, rfl⟩ := List.mem_map.mp h
  exact ⟨m, List.mem_of_mem_filter hm, rfl⟩

theorem length_propertyLines (h : ∀ m ∈ ms, WellNamed stale m) :
    ∀ x ∈ propertyLines (ms.map (fieldOf stale)), x.length ≤ maxPrinted := by
  have hparts : (ascii "    \"").length = 5 ∧ (ascii "\": \x7b \"type\": \"").length = 14 ∧
      (ascii "\" \x7d").length = 3 ∧ (ascii "\n").length = 1 := by decide
  obtain ⟨h₁, h₂, h₃, h₄⟩ := hparts
  have hmax : maxPrinted = 2147483647 := rfl
  induction ms with
  | nil => exact List.forall_mem_nil _
  | cons m ms ih =>
      obtain ⟨hm, hrest⟩ := List.forall_mem_cons.mp h
      rw [propertyLines_cons hm.name, List.forall_mem_append]
      refine ⟨fun x hx => ?_, ih hrest⟩
      split at hx
      · obtain rfl := List.mem_singleton.mp hx
        have hcomma : (if (!ms.isEmpty) = true then ascii "," else []).length ≤ 1 := by
          split <;> decide
        have htype := length_jsonschemaType (inferredType (leafOf m).2)
        have hshort : (leafOf m).1.length < 1024 := hm.short
        simp only [leafLine, List.length_append, h₁, h₂, h₃, h₄]
        omega
      · exact absurd hx List.not_mem_nil

theorem length_requiredKeys (h : ∀ m ∈ ms, WellNamed stale m) :
    ∀ x ∈ requiredKeys true (ms.map (fieldOf stale)), x.length ≤ maxPrinted := by
  have hquotes : (ascii "\"").length = 1 ∧ (ascii ", ").length = 2 := by decide
  have hmax : maxPrinted = 2147483647 := rfl
  have hkeys : ∀ (ls : List (Bytes × Json)) (first : Bool), (∀ l ∈ ls, l.1.length < 1024) →
      ∀ x ∈ leafKeys first ls, x.length ≤ maxPrinted := by
    intro ls
    induction ls with
    | nil => exact fun _ _ => List.forall_mem_nil _
    | cons l ls ih =>
        intro first hshort
        obtain ⟨hl, hrest⟩ := List.forall_mem_cons.mp hshort
        rw [leafKeys, List.forall_mem_cons]
        refine ⟨?_, ih false hrest⟩
        cases first <;> simp [hquotes.1, hquotes.2] <;> omega
  rw [requiredKeys_map fun m hm => (h m hm).name]
  apply hkeys
  intro l hl
  obtain ⟨m, hm, rfl⟩ := mem_leavesOf (List.mem_of_mem_filter hl)
  exact (h m hm).short

/-- **What is printed for well named members** is a schema of their leaves just when the last of
them is a scalar, or none is, and all of it fits. -/
theorem generated_says_iff (h : ∀ m ∈ ms, WellNamed stale m) :
    ((generateJsonschema (ms.map (fieldOf stale))).overrun = false ∧
        Spells ((generateJsonschema (ms.map (fieldOf stale))).text schemaCap)
          (schemaTree (leavesOf ms))) ↔
      (leavesOf ms = [] ∨ ∀ m ∈ ms.getLast?, isScalar m.2) ∧
        schemaSize (leavesOf ms) ≤ schemaCap := by
  have hnames : ∀ m ∈ ms, (fieldOf stale m).key = dottedPath m.1 := fun m hm => (h m hm).name
  have hbodies : ∀ l ∈ leavesOf ms, IsBody l.1 := by
    intro l hl
    obtain ⟨m, hm, rfl⟩ := mem_leavesOf hl
    exact (h m hm).body
  have hlines := length_propertyLines h
  have htail : (schemaTail (ms.map (fieldOf stale)) ++ [schemaEnd]).flatten =
      schemaMiddle ++ ((leafKeys true (requiredLeaves (leavesOf ms))).flatten ++ schemaEnd) := by
    rw [schemaTail, requiredKeys_map hnames]
    simp
  have hgood : (leavesOf ms = [] ∨ ∀ m ∈ ms.getLast?, isScalar m.2) →
      propertyLines (ms.map (fieldOf stale)) = leafLines (leavesOf ms) := by
    rintro (hnone | hlast)
    · cases hms : ms.getLast? with
      | none => rw [List.getLast?_eq_none_iff.mp hms]; rfl
      | some x =>
          by_cases hx : isScalar x.2
          · exact propertyLines_good hnames fun m hm => by
              rw [hms] at hm
              rwa [← Option.some.inj hm]
          · rw [propertyLines_commas hnames hms (by simpa using hx), hnone]
            rfl
    · exact propertyLines_good hnames hlast
  have hwhole : propertyLines (ms.map (fieldOf stale)) = leafLines (leavesOf ms) →
      schemaHeader ++ (propertyLines (ms.map (fieldOf stale))).flatten ++
        (schemaTail (ms.map (fieldOf stale)) ++ [schemaEnd]).flatten =
          schemaText (leavesOf ms) := by
    intro heq
    rw [heq, htail, schemaText]
    simp only [List.append_assoc]
  constructor
  · rintro ⟨hinside, hspells⟩
    obtain ⟨k, hk, -, -, htext⟩ := text_generated hlines (length_requiredKeys h) hinside
    rw [htext, htail] at hspells
    have hcut : ∀ s : Bytes, cstr (s.take (schemaCap - 1)) <+: s.take (schemaCap - 1) :=
      fun s => cstr_prefix _
    have hmissing : k < (leavesOf ms).length → (propertyLines (ms.map (fieldOf stale))).take k =
        ((leavesOf ms).take k).map (fun l => leafLine l true) → False := by
      intro hlt htake
      rw [htake] at hspells
      exact not_says_missing hbodies hlt ((hcut _).trans (List.take_prefix _ _)) hspells
    by_cases hlast : leavesOf ms = [] ∨ ∀ m ∈ ms.getLast?, isScalar m.2
    · refine ⟨hlast, ?_⟩
      have hlines := hgood hlast
      rw [hlines, length_leafLines] at hk
      rcases Nat.lt_or_eq_of_le hk with hlt | rfl
      · exact (hmissing hlt (by rw [hlines, take_leafLines hlt])).elim
      · rw [← htail, ← length_leafLines, ← hlines, List.take_length, hwhole hlines] at hspells
        by_contra hlong
        exact not_says_short hbodies (by rw [length_schemaText]; omega) (hcut _) hspells
    · push Not at hlast
      obtain ⟨hne, x, hx, hscalar⟩ := hlast
      have hlines := propertyLines_commas hnames hx (by simpa using hscalar)
      rw [hlines, List.length_map] at hk
      rcases Nat.lt_or_eq_of_le hk with hlt | rfl
      · exact (hmissing hlt (by rw [hlines, List.map_take])).elim
      · rw [hlines, ← List.length_map (f := fun l => leafLine l true), List.take_length] at hspells
        exact absurd hspells (not_says_comma hbodies hne ((hcut _).trans (List.take_prefix _ _)))
  · rintro ⟨hlast, hsize⟩
    have heq := hwhole (hgood hlast)
    rw [← length_schemaText] at hsize
    have hend : 0 < schemaEnd.length := by decide
    obtain ⟨hinside, htext⟩ := generated_fits hlines (by
      have hflat := congrArg List.length heq
      rw [List.flatten_append, ← List.append_assoc, List.length_append] at hflat
      omega)
    refine ⟨hinside, ?_⟩
    rw [text_schemaJson] at hsize heq
    rw [htext, heq, ← tree_schemaJson]
    exact spells_cut (valid_schemaJson hbodies) hsize

end Printed

/-! ## The call -/

theorem schemaDerive_object {doc : Document} (hvalid : doc.Valid)
    (hobject : inferredType doc.value = .object)
    (hpaths : PathsShort (valueMembers [] doc.value)) (stale : Bytes) :
    schemaDerive stale doc.text =
      derivedSchema ((valueMembers [] doc.value).map (fieldOf stale)) := by
  have hbefore : ∀ s, nextStok (doc.before ++ s) = nextStok s := fun s =>
    nextToken_gap hvalid.before s
  have hvalue := hvalid.value
  have hlen : doc.value.text.length ≤ doc.text.length := by
    rw [Document.text, List.length_append, List.length_append]
    omega
  unfold schemaDerive
  cases hdoc : doc.value with
  | object members =>
      rw [hdoc] at hvalue hpaths hlen
      have htoken : nextStok doc.text = (.lbrace, members.text ++ ch '\x7d' :: doc.after) := by
        rw [Document.text, hbefore, hdoc, Json.text, List.cons_append, List.append_assoc]
        rfl
      have hwalk := @deriveObject_text stale members hvalue (doc.text.length + 1) [] doc.after (by
        simp only [Json.text, List.length_cons, List.length_append] at hlen
        omega) hpaths []
      rw [htoken]
      dsimp only
      rw [show deriveObject stale (doc.text.length + 1) [] _ [] = _ from hwalk]
      rfl
  | emptyObject ws =>
      rw [hdoc] at hvalue
      have htoken : nextStok doc.text = (.lbrace, ws ++ ch '\x7d' :: doc.after) := by
        rw [Document.text, hbefore, hdoc, Json.text, List.cons_append, List.append_assoc]
        rfl
      rw [htoken]
      dsimp only
      rw [deriveObject.eq_def]
      dsimp only [nextStok]
      rw [nextToken_close hvalue rfl]
      rfl
  | string _ => rw [hdoc] at hobject; cases hobject
  | number text =>
      rw [hdoc, inferredType] at hobject
      split at hobject <;> cases hobject
  | word w => rw [hdoc] at hobject; cases w <;> cases hobject
  | emptyArray _ => rw [hdoc] at hobject; cases hobject
  | array _ => rw [hdoc] at hobject; cases hobject

theorem derivesSchema_derived_iff (doc : Document) (fa : List DerivedField) :
    DerivesSchema doc (derivedSchema fa) ↔
      (fa.map fun f => (f.key, f.type)) =
          (valueMembers [] doc.value).map (fun m => (dottedPath m.1, inferredType m.2)) ∧
        (generateJsonschema fa).overrun = false ∧
          Spells ((generateJsonschema fa).text schemaCap) (schemaTree (leaves doc.value)) := by
  have hinside : (derivedSchema fa).overrun = (generateJsonschema fa).overrun := by
    rw [derivedSchema]
  have htext : (derivedSchema fa).schemaJson = (generateJsonschema fa).text schemaCap := by
    rw [derivedSchema]
  rw [← hinside, ← htext]
  constructor
  · intro h
    exact ⟨h.fields, h.inside, h.schema⟩
  · intro h
    exact ⟨rfl, h.1, h.2.1, h.2.2⟩

/-- **When the schema is right.**  For every object whose dotted paths are shorter than the
buffer of the walk: no member with members of its own has an empty name, the last member is a
scalar or no member is, and the schema fits into its buffer. -/
theorem derivesSchema_iff {doc : Document} (hvalid : doc.Valid)
    (hobject : inferredType doc.value = .object)
    (hpaths : ∀ m ∈ valueMembers [] doc.value, (dottedPath m.1).length < 1024) (stale : Bytes) :
    DerivesSchema doc (schemaDerive stale doc.text) ↔ SchemaFits doc.value := by
  have hbodies : ∀ m ∈ valueMembers [] doc.value, KeysBodies m :=
    valueMembers_bodies doc.value hvalid.value (List.forall_mem_nil _)
  have hfields := fields_fieldOf_iff stale hbodies
  have hnamed : (∀ m ∈ valueMembers [] doc.value, m.1.length ≤ 1 ∨ m.1.head? ≠ some []) →
      ∀ m ∈ valueMembers [] doc.value, WellNamed stale m := by
    intro hnames m hm
    have hname := (walkedKey_eq_iff m.1).mpr (hnames m hm)
    exact ⟨(key_fieldOf stale (hbodies m hm)).trans hname, isBody_dottedPath (hbodies m hm),
      hpaths m hm⟩
  rw [schemaDerive_object hvalid hobject hpaths, derivesSchema_derived_iff, hfields]
  constructor
  · rintro ⟨hnames, hspells⟩
    obtain ⟨hlast, hsize⟩ := (generated_says_iff (hnamed hnames)).mp hspells
    exact ⟨hnames, hlast, hsize⟩
  · rintro ⟨hnames, hlast, hsize⟩
    exact ⟨hnames, (generated_says_iff (hnamed hnames)).mpr ⟨hlast, hsize⟩⟩

/-- An object with a scalar and a null in another one. -/
theorem derivesSchema_iff_nested : ∃ doc : Document,
    doc.text = ascii "\x7b\"a\":\x7b\"b\":true,\"c\":null\x7d\x7d" ∧
      DerivesSchema doc (schemaDerive [] doc.text) := by
  have hkey : ∀ s : Bytes, (∀ c ∈ s, 32 ≤ c ∧ c ≠ ch '"' ∧ c ≠ ch '\\') →
      MemberKey.Valid ⟨[], s, [], []⟩ := fun s hs => ⟨.nil, isBody_of_plain hs, .nil, .nil⟩
  refine ⟨⟨[], .object (.last ⟨[], ascii "a", [], []⟩ (.object
    (.more ⟨[], ascii "b", [], []⟩ (.word .true) []
      (.last ⟨[], ascii "c", [], []⟩ (.word .null) []))) []), []⟩, rfl, ?_⟩
  refine (derivesSchema_iff ?_ rfl (by decide) []).mpr ⟨by decide, Or.inr (by decide), by decide⟩
  exact ⟨.nil, ⟨hkey _ (by decide), ⟨hkey _ (by decide), trivial, .nil, hkey _ (by decide),
    trivial, .nil⟩, .nil⟩, .nil⟩

/-- The scalar before an empty object is followed by a comma. -/
theorem empty_object_last :
    ¬DerivesSchema ⟨[], .object (.more ⟨[], ascii "a", [], []⟩ (.word .true) []
        (.last ⟨[], ascii "b", [], []⟩ (.emptyObject []) [])), []⟩
      (schemaDerive [] (ascii "\x7b\"a\":true,\"b\":\x7b\x7d\x7d")) := by
  intro h
  have houtline := h.schema.outline
  exact absurd houtline (by decide +kernel)

end BlessStar.Convert.Proofs.DerivedSchema
