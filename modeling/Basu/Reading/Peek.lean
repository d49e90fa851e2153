import Basu.Reading.Typed

/-! What `sd_bus_message_peek_type` announces is what `sd_bus_message_enter_container` enters. -/

namespace Basu.Reading
open Lib GVariant

/-- The container that comes next, by the first character of the signature and by what is behind
it. -/
inductive Announces (m : SdBusMessage) : UInt8 → Str → Prop
  | array {u : Ty} {r : Str} (h : m.last.rest = (Ty.array u).sig ++ r) (hu : u.Fits true 0 0) :
    Announces m sdBusTypeArray u.sig
  | struct {ts : List Ty} {r : Str} (h : m.last.rest = (Ty.struct ts).sig ++ r)
      (ht : (Ty.struct ts).Fits true 0 0) : Announces m sdBusTypeStruct (Ty.sigs ts)
  | dictEntry {k : Basic} {v : Ty} {r : Str} (h : m.last.rest = (Ty.dictEntry k v).sig ++ r)
      (ht : (Ty.dictEntry k v).Fits true 0 0) : Announces m sdBusTypeDictEntry (k.code :: v.sig)
  | variant {s : Str} (hc : m.last.cur = sdBusTypeVariant) (hs : peekVariant m = .ok s) :
    Announces m sdBusTypeVariant s

theorem head_of_rest (t : Ty) {c : BusContainer} {r : Str} {x : UInt8} (h : c.rest = t.sig ++ r)
    (hc : c.cur = x) : t.head = x := by
  unfold BusContainer.cur at hc
  rw [h, t.charAt_sig_append] at hc
  exact hc

theorem sigs_pair (k : Basic) (v : Ty) : Ty.sigs [.basic k, v] = k.code :: v.sig := by
  simp only [Ty.sigs, Ty.sig, List.singleton_append, List.append_nil]

section Peek
variable {m : SdBusMessage} {type : UInt8} {contents : Str}

theorem Announces.type_ne_zero (h : Announces m type contents) : type ≠ 0 := by
  cases h <;> decide

theorem eq_cons_cur {c : BusContainer} (hc : c.cur ≠ 0) : c.rest = c.cur :: c.rest.drop 1 :=
  eq_cons_of_charAt hc rfl

theorem sdBusMessagePeekType_some
    (h : sdBusMessagePeekType m = .ok (some (type, some contents))) :
    More m ∧ Announces m type contents := by
  unfold sdBusMessagePeekType at h
  dsimp only at h
  split_ifs at h with hend hbasic harray hmembers hstruct hvar
  · cases h
  · cases h
  all_goals
    obtain ⟨hs, ha⟩ : messageEndOfSignature m = false ∧ messageEndOfArray m m.rindex = false := by
      simpa using hend
    refine ⟨⟨hs, ha⟩, ?_⟩
  · split at h
    · cases h
    rename_i l hl
    cases h
    obtain ⟨u, hu, rfl, hfits⟩ := signatureElementLength_sound hl
    have hne : m.last.cur ≠ 0 := by rw [harray]; decide
    rw [hu, List.take_left]
    refine .array (r := (m.last.rest.drop 1).drop u.sig.length) ?_ hfits
    rw [Ty.sig, List.cons_append, ← hu, ← harray]
    exact eq_cons_cur hne
  · split at h
    · cases h
    rename_i l hl
    obtain ⟨t, ht, rfl, hfits⟩ := signatureElementLength_sound hl
    obtain ⟨ts, rfl⟩ := eq_struct_of_head (head_of_rest t ht hstruct)
    cases h
    have hm : (m.last.rest.drop 1).take ((Ty.struct ts).sig.length - 2) = Ty.sigs ts := by
      rw [ht]
      exact membersOf_struct ts _
    rw [hm]
    exact .struct ht hfits
  · split at h
    · cases h
    rename_i l hl
    obtain ⟨t, ht, rfl, hfits⟩ := signatureElementLength_sound hl
    obtain ⟨k, v, rfl⟩ := eq_dictEntry_of_head (head_of_rest t ht (hmembers.resolve_left hstruct))
    cases h
    have hm : (m.last.rest.drop 1).take ((Ty.dictEntry k v).sig.length - 2) = k.code :: v.sig := by
      rw [ht, ← sigs_pair]
      exact membersOf_dictEntry k v _
    rw [hm]
    exact .dictEntry ht hfits
  · obtain ⟨s, hs, hs'⟩ := exists_of_map h
    cases hs'
    exact .variant hvar hs

theorem sdBusMessageEnterContainer_announced
    (h : sdBusMessagePeekType m = .ok (some (type, some contents))) :
    sdBusMessageEnterContainer m 0 none = sdBusMessageEnterContainer m type (some contents) := by
  obtain ⟨-, ha⟩ := sdBusMessagePeekType_some h
  have hnone : ¬((0 : UInt8) ≠ 0 ∧ (0 : UInt8) ≠ type) := fun hc => hc.1 rfl
  unfold sdBusMessageEnterContainer
  dsimp only
  rw [h, if_neg ha.type_ne_zero]
  exact if_neg hnone

theorem sdBusMessagePeekType_nothing (h : sdBusMessagePeekType m = .ok none) :
    (messageEndOfSignature m || messageEndOfArray m m.rindex) = true := by
  by_contra hend
  unfold sdBusMessagePeekType at h
  dsimp only at h
  rw [if_neg hend] at h
  split_ifs at h
  · cases h
  · split at h <;> cases h
  · split at h <;> cases h
  · split at h <;> cases h
  · obtain ⟨s, -, hs⟩ := exists_of_map h
    cases hs

theorem sdBusMessageEnterContainer_nothing (h : sdBusMessagePeekType m = .ok none) :
    (sdBusMessageEnterContainer m 0 none).1 = .ok false ∨
    ∃ r, (sdBusMessageEnterContainer m 0 none).1 = .error (.errno r) := by
  have hend := sdBusMessagePeekType_nothing h
  unfold sdBusMessageEnterContainer enterContainer
  dsimp only
  rw [h]
  dsimp only
  rw [if_neg (fun hne => hne rfl)]
  split_ifs with hd hs ha
  · exact .inr ⟨_, rfl⟩
  · exact .inr ⟨_, rfl⟩
  · exact .inl rfl
  · rw [Bool.or_eq_true] at hend
    exact absurd (hend.resolve_left hs) ha

structure EnteredNow (m : SdBusMessage) (type : UInt8) (contents : Str) (m' : SdBusMessage) :
    Prop where
  enclosing : m'.last.enclosing = type
  signature : m'.last.signature = some contents
  index : m'.last.index = 0
  outer : m'.outer.tail = m.outer
  depth : m'.outer.length = m.outer.length + 1

theorem sdBusMessageEnterContainer_entered {m' : SdBusMessage} (hne : type ≠ 0)
    (h : sdBusMessageEnterContainer m type (some contents) = (.ok true, m')) :
    EnteredNow m type contents m' := by
  rw [sdBusMessageEnterContainer_some, if_neg hne] at h
  obtain ⟨r, he⟩ | ⟨he, -⟩ | ⟨r, ri, he, -⟩ | ⟨m₁, he, hm₁⟩ := enterContainer_cases m type contents
  · rw [he] at h
    cases h
  · rw [he] at h
    cases h
  · rw [he] at h
    cases h
  · rw [he] at h
    cases h
    obtain ⟨x, ri, -, rfl⟩ := hm₁.entered
    exact ⟨rfl, rfl, rfl, rfl, rfl⟩

def ArrayFits (d : Content) (ri : Nat) (contents : Str) : Prop :=
  ∃ size ri' alignment x, peekWord d ri 4 = .ok (size, ri') ∧ size ≤ busArrayMaxSize ∧
    busTypeGetAlignment (charAt contents 0) = some alignment ∧
    messagePeekBody d ri' alignment 0 = .ok x

structure WellFormed (m : SdBusMessage) (type : UInt8) (contents : Str) : Prop where
  array : type = sdBusTypeArray → ArrayFits m.toContent m.rindex contents
  variant : type = sdBusTypeVariant → signatureIsSingle contents false = true
  members : type = sdBusTypeStruct ∨ type = sdBusTypeDictEntry →
    ∃ x, messagePeekBody m.toContent m.rindex 8 0 = .ok x

theorem isPrefixOf_drop {c : BusContainer} {s r : Str} {x : UInt8} (h : c.rest = x :: (s ++ r)) :
    s.isPrefixOf (c.rest.drop 1) = true := by
  rw [h, List.drop_succ_cons, List.drop_zero]
  exact List.isPrefixOf_iff_prefix.mpr (List.prefix_append s r)

theorem cur_of_rest {c : BusContainer} {r : Str} {x : UInt8} (h : c.rest = x :: r) : c.cur = x := by
  unfold BusContainer.cur
  rw [h]
  rfl

theorem hasMembers_of_rest {c : BusContainer} {s r : Str} {first last : UInt8}
    (h : c.rest = first :: (s ++ last :: r)) : c.hasMembers first last s = true := by
  have hprefix := isPrefixOf_drop h
  have hcur := cur_of_rest h
  unfold BusContainer.hasMembers GVariant.Container.hasMembers
  rw [show c.toContainer.cur = first from hcur, show c.toContainer.rest = c.rest from rfl, hprefix, h,
    List.drop_succ_cons, List.drop_zero, charAt_append_length, charAt_cons_zero]
  simp

theorem enterArrayDbus1_ok {d : Content} {ri : Nat} {s : Str} :
    (∃ x, enterArrayDbus1 d ri s = .ok x) ↔ ArrayFits d ri s := by
  unfold enterArrayDbus1
  constructor
  · rintro ⟨x, hx⟩
    split at hx
    · cases hx
    rename_i size ri' hp
    split_ifs at hx with hsize
    split at hx
    · cases hx
    rename_i alignment ha
    split at hx
    · cases hx
    rename_i hp'
    exact ⟨size, ri', alignment, _, hp, Nat.not_lt.mp hsize, ha, hp'⟩
  · rintro ⟨size, ri', alignment, x, hp, hsize, ha, hp'⟩
    rw [hp]
    dsimp only
    rw [if_neg (Nat.not_lt.mpr hsize), ha]
    dsimp only
    rw [hp']
    exact ⟨_, rfl⟩

theorem enterMembers_ok {s : Str} (hv : m.gvariant = false) :
    (∃ x ri, enterStructOrDictEntry m s = (.ok x, ri)) ↔
      ∃ x, messagePeekBody m.toContent m.rindex 8 0 = .ok x := by
  unfold enterStructOrDictEntry
  dsimp only
  rw [if_neg (by rw [hv]; decide)]
  cases messagePeekBody m.toContent m.rindex 8 0 with
  | error r => simp
  | ok x => simp

theorem Announces.enterByType (h : WellTyped m) (ha : Announces m type contents) :
    (∃ x ri, enterByType m type contents = (.ok x, ri)) ↔ WellFormed m type contents := by
  cases ha with
  | @array u r hrest hu =>
    rw [Ty.sig, List.cons_append] at hrest
    have henter : Reading.enterByType m sdBusTypeArray u.sig =
        (enterArrayDbus1 m.toContent m.rindex u.sig, m.rindex) := by
      unfold Reading.enterByType busMessageEnterArray
      dsimp only
      rw [if_pos rfl, signatureIsSingle_sig hu, cur_of_rest hrest, isPrefixOf_drop hrest, h.dbus1]
      rfl
    rw [henter]
    constructor
    · rintro ⟨x, ri, hx⟩
      have hfits := enterArrayDbus1_ok.mp ⟨x, congrArg Prod.fst hx⟩
      exact ⟨fun _ => hfits, fun hne => absurd hne (by decide), fun hne => absurd hne (by decide)⟩
    · intro hw
      obtain ⟨x, hx⟩ := enterArrayDbus1_ok.mpr (hw.array rfl)
      exact ⟨x, m.rindex, by rw [hx]⟩
  | @struct ts r hrest ht =>
    have hlen := h.last.length_rest
    rw [hrest, Ty.sig, List.length_append, List.length_cons, List.length_append] at hlen
    rw [Ty.sig, List.cons_append, List.append_assoc, List.singleton_append] at hrest
    rw [Ty.Fits, Ty.allFit_iff] at ht
    have hvalid : signatureIsValid (Ty.sigs ts) false = true :=
      (signatureIsValid_iff (Ty.zero_notMem_sigs ts) false).mpr
        ⟨ts, rfl, fun t hmem => (ht.2.2 t hmem).mono id le_rfl (Nat.zero_le _), by omega⟩
    have henter : Reading.enterByType m sdBusTypeStruct (Ty.sigs ts) =
        enterStructOrDictEntry m (Ty.sigs ts) := by
      unfold Reading.enterByType busMessageEnterStruct
      rw [if_neg (by decide), if_neg (by decide), if_pos rfl, hvalid, hasMembers_of_rest hrest]
      rfl
    rw [henter, enterMembers_ok h.dbus1]
    refine ⟨fun hx => ⟨fun hne => absurd hne (by decide), fun hne => absurd hne (by decide),
      fun _ => hx⟩, fun hw => hw.members (.inl rfl)⟩
  | @dictEntry k v r hrest ht =>
    have harray : m.last.enclosing = sdBusTypeArray := by
      by_contra hne
      obtain ⟨ts, hts, hd⟩ := h.last.rest
      obtain ⟨us, rfl, -⟩ := Ty.sigs_eq_sig_append (hts.symm.trans hrest)
      exact absurd (hd hne (.dictEntry k v) (by simp)) Bool.true_eq_false.mp
    rw [Ty.sig, List.cons_append, List.cons_append, List.append_assoc, List.singleton_append,
      ← List.cons_append] at hrest
    rw [Ty.Fits] at ht
    have hpair : signatureIsPair (k.code :: v.sig) = true := by
      refine (signatureIsPair_iff ?_).mpr ⟨k, v, rfl, ht.2.2.mono id le_rfl (Nat.zero_le _)⟩
      rw [← sigs_pair]
      exact Ty.zero_notMem_sigs _
    have henter : Reading.enterByType m sdBusTypeDictEntry (k.code :: v.sig) =
        enterStructOrDictEntry m (k.code :: v.sig) := by
      unfold Reading.enterByType busMessageEnterDictEntry
      rw [if_neg (by decide), if_neg (by decide), if_neg (by decide), if_pos rfl, hpair,
        hasMembers_of_rest hrest, harray]
      rfl
    rw [henter, enterMembers_ok h.dbus1]
    refine ⟨fun hx => ⟨fun hne => absurd hne (by decide), fun hne => absurd hne (by decide),
      fun _ => hx⟩, fun hw => hw.members (.inr rfl)⟩
  | variant hc hs =>
    unfold peekVariant at hs
    rw [if_neg (by rw [h.dbus1]; decide)] at hs
    obtain ⟨⟨s, ri⟩, hp, rfl⟩ := exists_of_map hs
    obtain ⟨h0, -⟩ := peekSignature_valid hp
    have henter : Reading.enterByType m sdBusTypeVariant s =
        (busMessageEnterVariant m s, m.rindex) := by
      unfold Reading.enterByType
      rw [if_neg (by decide), if_pos rfl]
    have hsingle : signatureIsSingle s false = true →
        busMessageEnterVariant m s = .ok { rindex := ri, skip := 1 } := by
      intro hsingle
      obtain ⟨w, rfl, hw⟩ := (signatureIsSingle_iff h0 false).mp hsingle
      have hdict : charAt w.sig 0 ≠ sdBusTypeDictEntryBegin := by
        intro hhead
        have hcur := w.charAt_sig_append []
        rw [List.append_nil, hhead] at hcur
        obtain ⟨k, v, rfl⟩ := eq_dictEntry_of_head hcur.symm
        rw [Ty.Fits] at hw
        exact Bool.false_ne_true hw.1
      unfold busMessageEnterVariant
      dsimp only
      rw [hsingle, if_neg (by decide), if_neg hdict, if_neg (not_not.mpr hc),
        if_neg (by rw [h.dbus1]; decide), hp]
      exact if_neg (not_not.mpr rfl)
    rw [henter]
    constructor
    · rintro ⟨x, ri', hx⟩
      have hs := busMessageEnterVariant_single (congrArg Prod.fst hx)
      exact ⟨fun hne => absurd hne (by decide), fun _ => hs, fun hne => absurd hne (by decide)⟩
    · intro hw
      exact ⟨_, m.rindex, by rw [hsingle (hw.variant rfl)]⟩

theorem enterContainer_of_more (hm : More m) (hd : m.outer.length < busContainerDepth) :
    enterContainer m type (some contents) =
      match enterByType m type contents with
      | (.error r, ri) => (.error (.errno r), { m with last := m.last.save, rindex := ri })
      | (.ok x, _) => (.ok true, m.enter type contents x) := by
  unfold enterContainer
  rw [if_neg (Nat.not_le.mpr hd), if_neg (by rw [hm.signature]; decide)]
  exact if_neg (by rw [hm.array]; decide)

theorem sdBusMessageEnterContainer_named (h : WellTyped m)
    (hp : sdBusMessagePeekType m = .ok (some (type, some contents))) :
    (sdBusMessageEnterContainer m type (some contents)).1 = .ok true ↔
      m.outer.length < busContainerDepth ∧ WellFormed m type contents := by
  obtain ⟨hm, ha⟩ := sdBusMessagePeekType_some hp
  rw [sdBusMessageEnterContainer_some, if_neg ha.type_ne_zero]
  by_cases hd : m.outer.length < busContainerDepth
  · rw [enterContainer_of_more hm hd, ← ha.enterByType h]
    constructor
    · intro hx
      refine ⟨hd, ?_⟩
      cases he : Reading.enterByType m type contents with
      | mk r ri =>
        cases r with
        | error r =>
          rw [he] at hx
          cases hx
        | ok x => exact ⟨x, ri, rfl⟩
    · rintro ⟨-, x, ri, he⟩
      rw [he]
  · have hdeep : enterContainer m type (some contents) = (.error (.errno .ebadmsg), m) := by
      unfold enterContainer
      rw [if_pos (Nat.not_lt.mp hd)]
    rw [hdeep]
    exact ⟨fun hx => (by cases hx), fun hx => absurd hx.1 hd⟩

end Peek

def AnonymousEnters (m : SdBusMessage) : Prop :=
  ∀ type contents, sdBusMessagePeekType m = .ok (some (type, some contents)) →
    sdBusMessageEnterContainer m 0 none = sdBusMessageEnterContainer m type (some contents) ∧
    ∀ m', sdBusMessageEnterContainer m 0 none = (.ok true, m') → EnteredNow m type contents m'

def NothingEnters (m : SdBusMessage) : Prop :=
  sdBusMessagePeekType m = .ok none →
    (sdBusMessageEnterContainer m 0 none).1 = .ok false ∨
    ∃ r, (sdBusMessageEnterContainer m 0 none).1 = .error (.errno r)

def NamedEnters (m : SdBusMessage) (ok : UInt8 → Str → Prop) : Prop :=
  ∀ type contents, sdBusMessagePeekType m = .ok (some (type, some contents)) →
    ((sdBusMessageEnterContainer m type (some contents)).1 = .ok true ↔ ok type contents)

theorem peek_enter_agree {m : SdBusMessage} (h : Reachable m) :
    AnonymousEnters m ∧ NothingEnters m ∧
      (m.gvariant = false → NamedEnters m fun type contents =>
        m.outer.length < busContainerDepth ∧ WellFormed m type contents) := by
  refine ⟨fun type contents hp => ?_, sdBusMessageEnterContainer_nothing, fun hv type contents hp =>
    sdBusMessageEnterContainer_named (h.wellTyped hv) hp⟩
  have heq := sdBusMessageEnterContainer_announced hp
  obtain ⟨-, ha⟩ := sdBusMessagePeekType_some hp
  refine ⟨heq, fun m' hm' => sdBusMessageEnterContainer_entered ha.type_ne_zero ?_⟩
  rw [← heq]
  exact hm'

def nestedVariants : SdBusMessage :=
  { gvariant := false, endian := .little, nativeEndian := .little
    body := (List.replicate 129 [1, sdBusTypeVariant, 0]).flatten, userBodySize := 387
    last := { signature := some [sdBusTypeVariant] } }

theorem fresh_nestedVariants : Fresh nestedVariants where
  outer := rfl
  rindex := fun _ => rfl
  enclosing := rfl
  index := rfl
  begin := rfl
  offsetIndex := rfl
  itemSize := fun hv => nomatch hv
  signature := fun _ => ⟨⟨[.variant], rfl, by decide⟩, by decide⟩

theorem peek_enter_agree_nested : AnonymousEnters nestedVariants ∧ NothingEnters nestedVariants ∧
    (nestedVariants.gvariant = false → NamedEnters nestedVariants fun type contents =>
      nestedVariants.outer.length < busContainerDepth ∧
        WellFormed nestedVariants type contents) :=
  peek_enter_agree ⟨nestedVariants, [], fresh_nestedVariants, rfl⟩

def enterVariant : Op :=
  .call (.enterContainer sdBusTypeVariant (some ⟨[sdBusTypeVariant], by decide⟩))

def deepVariant : SdBusMessage :=
  after nestedVariants (List.replicate busContainerDepth enterVariant)

theorem length_nestedVariants (n : Nat) :
    (List.replicate n [1, sdBusTypeVariant, 0]).flatten.length = 3 * n := by
  simp
  omega

theorem drop_nestedVariants {k : Nat} (hk : k ≤ 129) :
    nestedVariants.body.drop (3 * k) =
      (List.replicate (129 - k) [1, sdBusTypeVariant, 0]).flatten := by
  have hsplit : nestedVariants.body = (List.replicate k [1, sdBusTypeVariant, 0]).flatten ++
      (List.replicate (129 - k) [1, sdBusTypeVariant, 0]).flatten := by
    rw [← List.flatten_append, ← List.replicate_add, Nat.add_sub_cancel' hk]
    rfl
  rw [hsplit, ← length_nestedVariants k, List.drop_left]

theorem peekBody_nestedVariants {i n : Nat} (h : i + n ≤ 387) :
    messagePeekBody nestedVariants.toContent i 1 n =
      .ok ((nestedVariants.body.drop i).take n, i + n) := by
  have hlen : nestedVariants.body.length = 387 := length_nestedVariants 129
  have hroom : ∀ j, i + j ≤ 387 → findPart (nestedVariants.body :: nestedVariants.next) 0 i j =
      some ((nestedVariants.body.drop i).take j) := by
    intro j hj
    rw [findPart, if_neg (by omega), if_pos (by omega)]
    rfl
  have hsize : nestedVariants.userBodySize = 387 := rfl
  rw [messagePeekBody, alignUp_one, Nat.sub_self, hroom 0 (by omega), hroom n h]
  simp [hsize, h]

theorem peekSignature_nestedVariants {k : Nat} (hk : k < 129) :
    peekSignature nestedVariants.toContent (3 * k) = .ok ([sdBusTypeVariant], 3 * k + 3) := by
  have hdrop := drop_nestedVariants hk.le
  obtain ⟨j, hj⟩ : ∃ j, 129 - k = j + 1 := ⟨128 - k, by omega⟩
  rw [hj, List.replicate_succ, List.flatten_cons] at hdrop
  have hdrop' : nestedVariants.body.drop (3 * k + 1) =
      [sdBusTypeVariant, 0] ++ (List.replicate j [1, sdBusTypeVariant, 0]).flatten := by
    rw [← List.drop_drop, hdrop]
    rfl
  have hone : (charAt ((nestedVariants.body.drop (3 * k)).take 1) 0).toNat = 1 := by
    rw [hdrop]
    rfl
  have htext : ((nestedVariants.body.drop (3 * k + 1)).take 2) = [sdBusTypeVariant, 0] := by
    rw [hdrop']
    rfl
  have hsig : validSignature [sdBusTypeVariant] = true :=
    @signatureIsValid_sigs [.variant] true (by simp [Ty.Fits]) (by decide)
  have hvalid : validateText validSignature [sdBusTypeVariant, 0] 1 = true := by
    rw [validateText, Bool.and_eq_true]
    exact ⟨by decide, hsig⟩
  rw [peekSignature, peekBody_nestedVariants (by omega)]
  simp only [hone, peekText]
  rw [peekBody_nestedVariants (by omega), htext]
  simp only [hvalid]
  rfl

structure DeepAt (k : Nat) (m : SdBusMessage) : Prop where
  content : m.toContent = nestedVariants.toContent
  rindex : m.rindex = 3 * k
  depth : m.outer.length = k
  enclosing : m.last.enclosing ≠ sdBusTypeArray
  cur : m.last.cur = sdBusTypeVariant

theorem DeepAt.enter {k : Nat} {m : SdBusMessage} (h : DeepAt k m) (hk : k < busContainerDepth) :
    DeepAt (k + 1) (enterVariant.exec m) := by
  have hv : m.gvariant = false := by
    have := congrArg Content.gvariant h.content
    exact this
  have hfull : ¬ busContainerDepth ≤ m.outer.length := by rw [h.depth]; omega
  have hend : messageEndOfSignature m = false := by
    simp [messageEndOfSignature, h.cur, sdBusTypeVariant]
  have hstop : messageEndOfArray m m.rindex = false := by simp [messageEndOfArray, h.enclosing]
  have hsig := @peekSignature_nestedVariants k (Nat.lt_succ_of_lt hk)
  have hsingle : signatureIsSingle [sdBusTypeVariant] false = true :=
    @signatureIsSingle_sig .variant false trivial
  have henter : busMessageEnterVariant m [sdBusTypeVariant] =
      .ok { rindex := 3 * k + 3, skip := 1 } := by
    rw [busMessageEnterVariant, if_neg (by simp [hsingle]), if_neg (by decide),
      if_neg (by simp [h.cur]), if_neg (by simp [hv]), h.content, h.rindex, hsig]
    rfl
  have hby : enterByType m sdBusTypeVariant [sdBusTypeVariant] =
      (.ok { rindex := 3 * k + 3, skip := 1 }, m.rindex) := by
    rw [enterByType, if_neg (by decide), if_pos rfl, henter]
  have hexec : enterVariant.exec m =
      m.enter sdBusTypeVariant [sdBusTypeVariant] { rindex := 3 * k + 3, skip := 1 } := by
    have hcall : enterVariant.exec m =
      (sdBusMessageEnterContainer m sdBusTypeVariant (some [sdBusTypeVariant])).2 := rfl
    rw [hcall, sdBusMessageEnterContainer, if_neg (by decide), enterContainer, if_neg hfull, if_neg (by simp [hend]),
      if_neg (by simp [hstop]), hby]
  rw [hexec]
  have hne : sdBusTypeVariant ≠ sdBusTypeArray := by decide
  exact ⟨h.content, rfl, congrArg (· + 1) h.depth, hne, rfl⟩

theorem DeepAt.after {k : Nat} (hk : k ≤ busContainerDepth) :
    DeepAt k (after nestedVariants (List.replicate k enterVariant)) := by
  induction k with
  | zero => exact ⟨rfl, rfl, rfl, by decide, rfl⟩
  | succ k ih =>
    rw [List.replicate_succ', Reading.after, List.foldl_concat]
    exact (ih (Nat.le_of_succ_le hk)).enter hk

/-- A variant that is not malformed is announced, and cannot be entered. -/
theorem not_namedEnters : Reachable deepVariant ∧ deepVariant.gvariant = false ∧
    ¬ NamedEnters deepVariant (WellFormed deepVariant) := by
  have hdeep : DeepAt busContainerDepth deepVariant := DeepAt.after le_rfl
  have hv : deepVariant.gvariant = false := congrArg Content.gvariant hdeep.content
  have hp : sdBusMessagePeekType deepVariant =
      .ok (some (sdBusTypeVariant, some [sdBusTypeVariant])) := by
    have hsig := @peekSignature_nestedVariants busContainerDepth (by decide)
    have hend : messageEndOfSignature deepVariant = false := by
      simp [messageEndOfSignature, hdeep.cur, sdBusTypeVariant]
    have hstop : messageEndOfArray deepVariant deepVariant.rindex = false := by
      simp [messageEndOfArray, hdeep.enclosing]
    rw [sdBusMessagePeekType, hend, hstop, if_neg (by decide), hdeep.cur, if_neg (by decide),
      if_neg (by decide), if_neg (by decide), if_pos rfl, peekVariant, if_neg (by simp [hv]),
      hdeep.content, hdeep.rindex, hsig]
    rfl
  have hfull : (sdBusMessageEnterContainer deepVariant sdBusTypeVariant
      (some [sdBusTypeVariant])).1 = .error (.errno .ebadmsg) := by
    rw [sdBusMessageEnterContainer, if_neg (by decide), enterContainer,
      if_pos (hdeep.depth.symm.le)]
  refine ⟨⟨nestedVariants, _, fresh_nestedVariants, rfl⟩, hv, fun h => ?_⟩
  have henters := (h _ _ hp).mpr
    ⟨fun hne => absurd hne (by decide), fun _ => @signatureIsSingle_sig .variant false trivial,
      fun hne => absurd hne (by decide)⟩
  rw [hfull] at henters
  cases henters

end Basu.Reading
