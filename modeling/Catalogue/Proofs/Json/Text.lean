import Catalogue.Json.Reader
import Catalogue.Proofs.Json.Token

/-!
# Written values read back

The reader is a machine that is fed one token after another. A written value brings it from where a
value may begin to where that value is complete, whatever stands on its stack and whatever text
follows, so that values, items and members are read one inside another.

* `IsExact` — the values whose numbers are read back.
* `Completes` — fed a text, the machine completes a value; `completes_members` says this of an
  object from its members, and `completes_of_isExact` of every exact value.
* `readDeep?_write` and `read?_write` — a written value is read back.
-/

namespace Catalogue.Json

open Catalogue.Number
open Catalogue.Text

/-! ## Exact values -/

mutual

/-- Integers fit 64 bits, the text of every float is read as that float, and nothing in the value is
unreadable. -/
def IsExact : Json → Prop
  | .integer n => -0x8000000000000000 ≤ n ∧ n ≤ greatest
  | .float x => number? (write (.float x)).toList = some (.float x, [])
  | .array items => ItemsExact items
  | .object members => MembersExact members
  | .unreadable => False
  | _ => True

def ItemsExact : List Json → Prop
  | [] => True
  | v :: rest => v.IsExact ∧ ItemsExact rest

def MembersExact : List (String × Json) → Prop
  | [] => True
  | (_, v) :: rest => v.IsExact ∧ MembersExact rest

end

theorem itemsExact_iff {vs : List Json} : ItemsExact vs ↔ ∀ v ∈ vs, v.IsExact := by
  induction vs with
  | nil => simp [ItemsExact]
  | cons v rest ih => rw [ItemsExact, ih, List.forall_mem_cons]

theorem membersExact_iff {ms : List (String × Json)} :
    MembersExact ms ↔ ∀ m ∈ ms, m.2.IsExact := by
  induction ms with
  | nil => simp [MembersExact]
  | cons m rest ih => rw [MembersExact, ih, List.forall_mem_cons]

/-- A signed number of 64 bits. -/
theorem isExact_signed {n : Int} (hlow : -0x8000000000000000 ≤ n)
    (hhigh : n < 0x8000000000000000) : (integer n).IsExact :=
  ⟨hlow, hhigh.le.trans (by decide)⟩

/-- A natural number of 64 bits. -/
theorem isExact_natCast {n : Nat} (h : n ≤ greatest) : (integer n).IsExact :=
  ⟨le_trans (by decide) (Int.natCast_nonneg n), Int.ofNat_le.mpr h⟩

theorem isExact_uint32 (n : UInt32) : (integer n.toNat).IsExact :=
  isExact_natCast (n.toNat_lt.le.trans (by decide))

/-- A float that is not finite is written as `null`. -/
theorem isExact_ofFloat {x : Float} (h : (float x).IsExact) : (ofFloat x).IsExact := by
  unfold ofFloat
  split
  · exact h
  · trivial

/-! ## Tokens -/

section Tokens

variable {c : Char} {rest rest' : List Char} {t : Token}

theorem tokens_cons (hspace : isSpace c = false) (h : token? c rest = some (t, rest')) :
    tokens (c :: rest) = (tokens rest').map (t :: ·) := by
  rw [tokens, if_neg (by rw [hspace]; exact Bool.false_ne_true)]
  split
  · next hnone =>
    rw [h] at hnone
    cases hnone
  · next hsome =>
    rw [h] at hsome
    obtain ⟨rfl, rfl⟩ := Prod.mk.inj (Option.some.inj hsome)
    rfl

/-- What a number starts with. -/
def StartsNumber (c : Char) : Prop := c = '-' ∨ isDigit c = true

theorem startsNumber_of_wholeDigits? {cs ds r : List Char} (h : wholeDigits? cs = some (ds, r)) :
    ∃ c rest, cs = c :: rest ∧ isDigit c = true := by
  unfold wholeDigits? at h
  split at h
  · next rest => exact ⟨'0', rest, rfl, by decide⟩
  · dsimp only at h
    cases cs with
    | nil => cases h
    | cons c rest =>
      refine ⟨c, rest, rfl, ?_⟩
      by_contra hdigit
      rw [List.takeWhile_cons_of_neg hdigit] at h
      cases h

theorem startsNumber_of_number? {cs r : List Char} {v : Json} (h : number? cs = some (v, r)) :
    ∃ c rest, cs = c :: rest ∧ StartsNumber c := by
  unfold number? at h
  split at h
  · next rest => exact ⟨'-', rest, rfl, .inl rfl⟩
  · unfold unsignedNumber? at h
    obtain ⟨⟨ds, r'⟩, hwhole, -⟩ := Option.bind_eq_some_iff.mp h
    obtain ⟨c, rest, hcs, hdigit⟩ := startsNumber_of_wholeDigits? hwhole
    exact ⟨c, rest, hcs, .inr hdigit⟩

theorem StartsNumber.ne {d : Char} (h : StartsNumber c)
    (hd : d ≠ '-' ∧ isDigit d = false := by decide) : c ≠ d := by
  rintro rfl
  rcases h with rfl | h
  · exact hd.1 rfl
  · rw [hd.2] at h
    cases h

theorem StartsNumber.isSpace (h : StartsNumber c) : isSpace c = false := by
  simp only [Json.isSpace, Bool.or_eq_false_iff, beq_eq_false_iff_ne]
  exact ⟨⟨⟨h.ne, h.ne⟩, h.ne⟩, h.ne⟩

theorem StartsNumber.token? (h : StartsNumber c) (rest : List Char) :
    token? c rest = (number? (c :: rest)).map fun (v, r) => (.scalar v, r) := by
  unfold Json.token?
  split
  case h_11 => rfl
  all_goals exact absurd rfl h.ne

end Tokens

/-! ## Feeding the machine -/

namespace Machine

/-- Feeds a text to the machine. -/
def feed? (m : Machine) (cs : List Char) : Option Machine := (tokens cs).bind (m.run? ·)

variable {m : Machine} {stack : List Frame}

theorem feed?_nil (m : Machine) : m.feed? [] = some m := by
  rw [feed?, tokens]
  rfl

/-- White space is passed over. -/
theorem feed?_spaces (m : Machine) {cs : List Char} (h : ∀ c ∈ cs, isSpace c = true) :
    m.feed? cs = some m := by
  induction cs with
  | nil => exact feed?_nil m
  | cons c cs ih =>
    obtain ⟨hc, hcs⟩ := List.forall_mem_cons.mp h
    rw [feed?, tokens, if_pos hc]
    exact ih hcs

/-- One token is one step. -/
theorem feed?_token {m' : Machine} {c : Char} {rest rest' : List Char} {t : Token}
    (hspace : isSpace c = false) (ht : token? c rest = some (t, rest'))
    (hstep : m.step? t = some m') : m.feed? (c :: rest) = m'.feed? rest' := by
  rw [feed?, tokens_cons hspace ht, feed?]
  cases tokens rest' with
  | none => rfl
  | some ts =>
    show (m.step? t).bind _ = _
    rw [hstep]
    rfl

/-- The machine waits for a value; it may also wait for the end of an empty array. -/
def Awaits (m : Machine) (stack : List Frame) : Prop :=
  m = ⟨stack, .value⟩ ∨ m = ⟨stack, .firstItem⟩

theorem Awaits.step? (h : m.Awaits stack) {t : Token} (ht : t ≠ .closeArray) :
    m.step? t = value? stack t := by
  rcases h with rfl | rfl
  · rfl
  · unfold Machine.step?
    dsimp only
    split
    · exact absurd rfl ht
    · rfl

/-- A token where a value may begin. -/
theorem Awaits.feed? (h : m.Awaits stack) {m' : Machine} {c : Char} {rest rest' : List Char}
    {t : Token} (hspace : isSpace c = false) (ht : token? c rest = some (t, rest'))
    (hclose : t ≠ .closeArray) (hvalue : value? stack t = some m') :
    m.feed? (c :: rest) = m'.feed? rest' :=
  feed?_token hspace ht ((h.step? hclose).trans hvalue)

theorem Awaits.feed?_scalar (h : m.Awaits stack) {c : Char} {rest rest' : List Char} {v : Json}
    (hspace : isSpace c = false) (ht : token? c rest = some (.scalar v, rest')) :
    m.feed? (c :: rest) = (complete v stack).feed? rest' :=
  h.feed? hspace ht nofun rfl

theorem Awaits.feed?_number (h : m.Awaits stack) {cs rest : List Char} {v : Json}
    (hv : number? cs = some (v, [])) (hrest : EndsNumber rest) :
    m.feed? (cs ++ rest) = (complete v stack).feed? rest := by
  obtain ⟨c, tail, rfl, hc⟩ := startsNumber_of_number? hv
  have ht : token? c (tail ++ rest) = some (.scalar v, rest) := by
    rw [hc.token?, ← List.cons_append, number?_append hv hrest]
    rfl
  exact h.feed?_scalar hc.isSpace ht

theorem Awaits.feed?_string (h : m.Awaits stack) {text : List Char} {s : String}
    (hs : Quotes text s) (rest : List Char) :
    m.feed? (text ++ rest) = (complete (.string s) stack).feed? rest := by
  obtain ⟨cs, rfl, ht⟩ := hs
  exact h.feed? (by decide) (ht rest) nofun rfl

end Machine

/-! ## Texts that complete a value -/

open Machine

/-- Fed the text, the machine completes the value, whatever stands on its stack and whatever follows
that ends a number. -/
def Completes (v : Json) (text : List Char) : Prop :=
  ∀ ⦃m : Machine⦄ ⦃stack : List Frame⦄, m.Awaits stack → ∀ ⦃rest : List Char⦄, EndsNumber rest →
    m.feed? (text ++ rest) = (complete v stack).feed? rest

theorem completes_string {s : String} {text : List Char} (h : Quotes text s) :
    (Json.string s).Completes text :=
  fun _ _ hm rest _ => hm.feed?_string h rest

/-- Fed the text where a key may begin, the machine has one member more. -/
def CompletesMember (m : String × Json) (text : List Char) : Prop :=
  ∀ (members : Members) (canClose : Bool) (stack : List Frame) ⦃rest : List Char⦄,
    EndsNumber rest →
      (⟨stack, .key members canClose⟩ : Machine).feed? (text ++ rest) =
        (⟨.object ((some m.1, m.2) :: members) (some m.1) :: stack, .next⟩ : Machine).feed? rest

/-- A member of an object: its key, a colon and its value. -/
theorem completesMember {key : String} {v : Json} {keyText valueText : List Char}
    (hkey : Quotes keyText key) (hv : v.Completes valueText) :
    CompletesMember (key, v) (keyText ++ ':' :: valueText) := by
  intro members canClose stack rest hrest
  obtain ⟨cs, rfl, ht⟩ := hkey
  have hcolon : (⟨stack, .colon members (some key)⟩ : Machine).feed?
      (':' :: (valueText ++ rest)) =
        (⟨.object members (some key) :: stack, .value⟩ : Machine).feed? (valueText ++ rest) :=
    feed?_token (by decide) rfl rfl
  rw [List.append_assoc, List.cons_append, List.cons_append,
    feed?_token (by decide) (ht _) rfl, hcolon, hv (.inl rfl) hrest]
  rfl

/-! ## Behind commas -/

/-- Texts, each behind a comma. -/
def tailText {α : Type} (text : α → List Char) (as : List α) : List Char :=
  as.flatMap fun a => ',' :: text a

section Commas

variable {α : Type} (text : α → List Char)

theorem tailText_cons (a : α) (as : List α) :
    tailText text (a :: as) = ',' :: (text a ++ tailText text as) := rfl

/-- What follows an item ends a number. -/
theorem endsNumber_tailText (as : List α) {c : Char} (h : c = ']' ∨ c = '}') (rest : List Char) :
    EndsNumber (tailText text as ++ c :: rest) := by
  cases as with
  | nil => rcases h with rfl | rfl <;> exact endsNumber_cons (by decide) rest
  | cons a as => exact endsNumber_cons (by decide) _

theorem toList_intercalate_comma (s : String) (texts : List String) :
    (",".intercalate (s :: texts)).toList = s.toList ++ tailText String.toList texts := by
  have hcomma : ",".toList = [','] := rfl
  rw [String.toList_intercalate, hcomma]
  induction texts generalizing s with
  | nil =>
    rw [List.map_singleton, List.intercalate_singleton, tailText, List.flatMap_nil,
      List.append_nil]
  | cons t rest ih =>
    rw [List.map_cons, List.map_cons, List.intercalate_cons_cons, ← List.map_cons, ih t,
      tailText_cons, List.append_assoc]
    rfl

end Commas

/-! ## Arrays -/

theorem feed?_comma_item {items : List Json} {stack : List Frame} (rest : List Char) :
    (⟨.array items :: stack, .next⟩ : Machine).feed? (',' :: rest) =
      (⟨.array items :: stack, .value⟩ : Machine).feed? rest :=
  feed?_token (by decide) rfl rfl

theorem feed?_closeArray {items : List Json} {stack : List Frame} (rest : List Char) :
    (⟨.array items :: stack, .next⟩ : Machine).feed? (']' :: rest) =
      (complete (.array items.reverse) stack).feed? rest :=
  feed?_token (by decide) rfl rfl

/-- The rest of an array, behind its first item. -/
theorem feed?_items {vs : List Json} (h : ∀ v ∈ vs, v.Completes (write v).toList)
    (items : List Json) (stack : List Frame) (rest : List Char) :
    (⟨.array items :: stack, .next⟩ : Machine).feed?
        (tailText String.toList (writeItems vs) ++ ']' :: rest) =
      (complete (.array (items.reverse ++ vs)) stack).feed? rest := by
  induction vs generalizing items with
  | nil => rw [List.append_nil]; exact feed?_closeArray rest
  | cons v vs ih =>
    obtain ⟨hv, hvs⟩ := List.forall_mem_cons.mp h
    rw [writeItems, tailText_cons, List.cons_append, List.append_assoc, feed?_comma_item,
      hv (.inl rfl) (endsNumber_tailText _ _ (.inl rfl) rest)]
    show (⟨.array (v :: items) :: stack, .next⟩ : Machine).feed? _ = _
    rw [ih hvs, List.reverse_cons, List.append_assoc, List.singleton_append]

theorem completes_array {vs : List Json} (h : ∀ v ∈ vs, v.Completes (write v).toList) :
    (Json.array vs).Completes (write (.array vs)).toList := by
  intro m stack hm rest _
  have hopen (cs : List Char) : m.feed? ('[' :: cs) =
      (⟨.array [] :: stack, .firstItem⟩ : Machine).feed? cs := hm.feed? (by decide) rfl nofun rfl
  cases vs with
  | nil =>
    show m.feed? ('[' :: ']' :: rest) = _
    rw [hopen]
    exact feed?_token (by decide) rfl rfl
  | cons v vs =>
    obtain ⟨hv, hvs⟩ := List.forall_mem_cons.mp h
    have htext : (write (.array (v :: vs))).toList ++ rest =
        '[' :: ((write v).toList ++
          (tailText String.toList (writeItems vs) ++ ']' :: rest)) := by
      rw [write, writeItems, String.toList_append, String.toList_append,
        toList_intercalate_comma]
      simp only [List.append_assoc]
      rfl
    rw [htext, hopen, hv (.inr rfl) (endsNumber_tailText _ _ (.inl rfl) rest)]
    exact feed?_items hvs [v] stack rest

/-! ## Objects -/

theorem ofMembers_some (ms : List (String × Json)) :
    ofMembers (ms.map fun m => (some m.1, m.2)) = .object ms := by
  have hall : ∀ f : Option String × Json → Option (String × Json),
      (∀ m, f (some m.1, m.2) = some m) → (ms.map fun m => (some m.1, m.2)).mapM f = some ms := by
    intro f hf
    induction ms with
    | nil => rfl
    | cons m rest ih => rw [List.map_cons, List.mapM_cons, hf, ih]; rfl
  rw [ofMembers, hall _ fun _ => rfl]

theorem feed?_comma_member {members : Members} {key : Option String} {stack : List Frame}
    (rest : List Char) : (⟨.object members key :: stack, .next⟩ : Machine).feed? (',' :: rest) =
      (⟨stack, .key members false⟩ : Machine).feed? rest :=
  feed?_token (by decide) rfl rfl

theorem feed?_closeObject {members : Members} {key : Option String} {stack : List Frame}
    (rest : List Char) : (⟨.object members key :: stack, .next⟩ : Machine).feed? ('}' :: rest) =
      (complete (ofMembers members.reverse) stack).feed? rest :=
  feed?_token (by decide) rfl rfl

section Objects

variable {α : Type} {text : α → List Char} {member : α → String × Json}

/-- The rest of an object, behind its first member. -/
theorem feed?_members {as : List α} (h : ∀ a ∈ as, CompletesMember (member a) (text a))
    (members : Members) (key : Option String) (stack : List Frame) (rest : List Char) :
    (⟨.object members key :: stack, .next⟩ : Machine).feed? (tailText text as ++ '}' :: rest) =
      (complete (ofMembers
        (members.reverse ++ (as.map member).map fun m => (some m.1, m.2))) stack).feed? rest := by
  induction as generalizing members key with
  | nil => rw [List.map_nil, List.map_nil, List.append_nil]; exact feed?_closeObject rest
  | cons a as ih =>
    obtain ⟨ha, has⟩ := List.forall_mem_cons.mp h
    rw [tailText_cons, List.cons_append, List.append_assoc, feed?_comma_member,
      ha _ _ _ (endsNumber_tailText _ _ (.inr rfl) rest), ih has, List.reverse_cons,
      List.append_assoc, List.singleton_append, List.map_cons, List.map_cons]

/-- An object with at least one member. -/
theorem completes_members {a : α} {as : List α}
    (h : ∀ b ∈ a :: as, CompletesMember (member b) (text b)) :
    (Json.object ((a :: as).map member)).Completes
      ('\x7b' :: (text a ++ tailText text as ++ ['\x7d'])) := by
  intro m stack hm rest _
  obtain ⟨ha, has⟩ := List.forall_mem_cons.mp h
  have hopen (cs : List Char) : m.feed? ('\x7b' :: cs) =
      (⟨stack, .key [] true⟩ : Machine).feed? cs := hm.feed? (by decide) rfl nofun rfl
  rw [List.cons_append, hopen, List.append_assoc, List.append_assoc, List.singleton_append,
    ha _ _ _ (endsNumber_tailText _ _ (.inr rfl) rest), feed?_members has, ← ofMembers_some]
  rfl

end Objects

theorem writeMembers_eq_map (ms : List (String × Json)) :
    writeMembers ms = ms.map fun m => stringText m.1 ++ ":" ++ write m.2 := by
  induction ms with
  | nil => rfl
  | cons m rest ih => rw [writeMembers, ih, List.map_cons]

theorem completes_object {ms : List (String × Json)}
    (h : ∀ m ∈ ms, m.2.Completes (write m.2).toList) :
    (Json.object ms).Completes (write (.object ms)).toList := by
  cases ms with
  | nil =>
    intro m stack hm rest _
    have hopen : m.feed? ('\x7b' :: '\x7d' :: rest) =
        (⟨stack, .key [] true⟩ : Machine).feed? ('\x7d' :: rest) :=
      hm.feed? (by decide) rfl nofun rfl
    exact hopen.trans (feed?_token (by decide) rfl rfl)
  | cons p ms =>
    have hmember : ∀ m ∈ p :: ms, CompletesMember m
        ((stringText m.1).toList ++ ':' :: (write m.2).toList) :=
      fun m hm => completesMember (quotes_stringText m.1) (h m hm)
    have hcompletes : (Json.object ((p :: ms).map id)).Completes _ := completes_members hmember
    have htext : (write (.object (p :: ms))).toList = '\x7b' ::
        (((stringText p.1).toList ++ ':' :: (write p.2).toList) ++
          tailText (fun m => (stringText m.1).toList ++ ':' :: (write m.2).toList) ms ++
          ['\x7d']) := by
      rw [write, writeMembers_eq_map, List.map_cons, String.toList_append, String.toList_append,
        toList_intercalate_comma]
      simp only [tailText, List.flatMap_map, String.toList_append, List.append_assoc]
      rfl
    rw [htext]
    rwa [List.map_id] at hcompletes

/-! ## Written values -/

mutual

/-- The machine completes every exact value. -/
theorem completes_of_isExact : ∀ {v : Json}, v.IsExact → v.Completes (write v).toList
  | .null, _ => fun _ _ hm _ _ => hm.feed?_scalar (by decide) rfl
  | .bool true, _ => fun _ _ hm _ _ => hm.feed?_scalar (by decide) rfl
  | .bool false, _ => fun _ _ hm _ _ => hm.feed?_scalar (by decide) rfl
  | .integer _, h => fun _ _ hm _ hrest => hm.feed?_number (number?_toString h.1 h.2) hrest
  | .float _, h => fun _ _ hm _ hrest => hm.feed?_number h hrest
  | .string s, _ => completes_string (quotes_stringText s)
  | .array _, h => completes_array (completes_of_itemsExact h)
  | .object _, h => completes_object (completes_of_membersExact h)

theorem completes_of_itemsExact :
    ∀ {vs : List Json}, ItemsExact vs → ∀ v ∈ vs, v.Completes (write v).toList
  | [], _ => nofun
  | _ :: _, h =>
    List.forall_mem_cons.mpr ⟨completes_of_isExact h.1, completes_of_itemsExact h.2⟩

theorem completes_of_membersExact :
    ∀ {ms : List (String × Json)}, MembersExact ms → ∀ m ∈ ms, m.2.Completes (write m.2).toList
  | [], _ => nofun
  | (_, _) :: _, h =>
    List.forall_mem_cons.mpr ⟨completes_of_isExact h.1, completes_of_membersExact h.2⟩

end

/-! ## Depth -/

/-- Items that nest less deeply. -/
theorem limit_array {n : Nat} {vs : List Json} (h : ∀ v ∈ vs, limit n v = v) :
    limit (n + 1) (.array vs) = .array vs := by
  rw [limit]
  congr 1
  induction vs with
  | nil => rfl
  | cons v rest ih =>
    obtain ⟨hv, hrest⟩ := List.forall_mem_cons.mp h
    rw [limitItems, hv, ih hrest]

/-- Members that nest less deeply. -/
theorem limit_object {n : Nat} {ms : List (String × Json)} (h : ∀ m ∈ ms, limit n m.2 = m.2) :
    limit (n + 1) (.object ms) = .object ms := by
  rw [limit]
  congr 1
  induction ms with
  | nil => rfl
  | cons m rest ih =>
    obtain ⟨hm, hrest⟩ := List.forall_mem_cons.mp h
    rw [limitMembers, hm, ih hrest]

theorem limit_ofFloat (n : Nat) (x : Float) : limit n (ofFloat x) = ofFloat x := by
  unfold ofFloat
  split <;> rfl

/-! ## Texts -/

/-- What the machine completes is read as a whole, also with white space behind it. -/
theorem readDeep?_of_completes {v : Json} {text spaces : List Char} (h : v.Completes text)
    (hspaces : ∀ c ∈ spaces, isSpace c = true) (hends : EndsNumber spaces) :
    readDeep? (String.ofList (text ++ spaces)) = some v := by
  have hfeed := h (m := start) (.inl rfl) hends
  rw [feed?_spaces _ hspaces, feed?] at hfeed
  obtain ⟨ts, hts, hrun⟩ := Option.bind_eq_some_iff.mp hfeed
  rw [readDeep?, String.toList_ofList, hts]
  show (start.run? ts).bind _ = _
  rw [hrun]
  rfl

/-- An exact value is read back from its text. -/
theorem readDeep?_write {v : Json} (h : v.IsExact) : readDeep? (write v) = some v := by
  have hread :=
    readDeep?_of_completes (completes_of_isExact h) (List.forall_mem_nil _) endsNumber_nil
  rwa [List.append_nil, String.ofList_toList] at hread

/-- An exact value that does not nest too deeply is read back from its text. -/
theorem read?_write {v : Json} (h : v.IsExact) (hdepth : limit levels v = v) :
    read? (write v) = some v := by
  rw [read?, readDeep?_write h, Option.map_some, hdepth]

end Catalogue.Json
