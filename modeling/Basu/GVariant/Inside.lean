import Basu.GVariant.Reader
import Basu.GVariant.Accepted
import Basu.Message.Decode
import Mathlib.Data.List.GetD

/-! Where the reader of a version 2 message reads. The end of a member of fixed size is computed and
not compared with the end of its container, so the members behind the last offset have to fit. -/

namespace Basu.GVariant
open Lib

def fixedEnd (last : Nat) : Nat → Str → Nat → Nat
  | 0, _, p => p
  | fuel + 1, s, p =>
    if charAt s 0 = 0 then p
    else match signatureElementLength s with
      | none => p
      | some n =>
        fixedEnd last fuel (s.drop n)
          (match busGvariantGetSize (s.take n) with
            | some k => alignUp p ((busGvariantGetAlignment (s.take n)).getD 1) + k
            | none => last)

/-- The same for the structure or dictionary entry of the given size at the cursor. The first word
of its table is the end of the last member that has an offset. -/
def Inbound.membersEnd (m : Inbound) (contents : Str) (size : Nat) : Nat :=
  let sz := wordSize size
  let nVariable := (countVariable (contents.length + 1) contents).getD 0
  let table := slice m.body (m.rindex + size - nVariable * sz) (nVariable * sz)
  fixedEnd (m.rindex + tableWord sz table 0) (contents.length + 1) contents m.rindex

/-- An array of elements of fixed size that is not empty has room for one; in a structure or
dictionary entry there is room for the members of fixed size behind its last offset. -/
def Inbound.hasRoom (m : Inbound) (type : UInt8) (contents : Str) : Bool :=
  if type = sdBusTypeArray then
    m.last.itemSize = 0 || (busGvariantGetSize contents).getD 0 ≤ m.last.itemSize
  else if type = sdBusTypeVariant then true
  else m.membersEnd contents m.last.itemSize ≤ m.rindex + m.last.itemSize

def Call.hasRoom (m : Inbound) : Call → Bool
  | .enter type contents =>
    match resolveContainer m type (contents.map (·.1)) with
    | .ok (type, some s) => m.hasRoom type s
    | _ => true
  | _ => true

theorem fixedEnd_nil (last fuel p : Nat) : fixedEnd last fuel (Ty.sigs []) p = p := by
  cases fuel with
  | zero => rfl
  | succ fuel => rw [fixedEnd, if_pos (show charAt (Ty.sigs []) 0 = 0 from rfl)]

theorem fixedEnd_cons {last fuel p : Nat} {t : Ty} {ts : List Ty} (hs : t.Fits true 0 0) :
    fixedEnd last (fuel + 1) (Ty.sigs (t :: ts)) p =
      fixedEnd last fuel (Ty.sigs ts)
        (match size t with
          | some k => alignUp p (align t) + k
          | none => last) := by
  obtain ⟨hc, hn, hd, ht⟩ := scan_cons ts hs
  rw [fixedEnd, hc, hn, if_neg t.head_ne_zero]
  dsimp only
  rw [ht, hd, getAlignment_sig hs, getSize_sig hs]
  rfl

def allFixed (ts : List Ty) : Bool := ts.all fun t => (size t).isSome

theorem fixedEnd_eq {last : Nat} (fuel : Nat) : ∀ {ts : List Ty} (p q : Nat), Scannable ts →
    (Ty.sigs ts).length < fuel → allFixed ts = false →
    fixedEnd last fuel (Ty.sigs ts) p = fixedEnd last fuel (Ty.sigs ts) q := by
  induction fuel with
  | zero => exact fun _ _ _ h => absurd h (Nat.not_lt_zero _)
  | succ fuel ih =>
    intro ts p q hs hf hnot
    cases ts with
    | nil => exact absurd hnot (by decide)
    | cons t ts =>
      have hpos := t.sig_pos
      rw [length_sigs_cons] at hf
      rw [fixedEnd_cons hs.head, fixedEnd_cons hs.head]
      cases hk : size t with
      | none => rfl
      | some k =>
        rw [allFixed, List.all_cons, hk] at hnot
        exact ih _ _ hs.tail (by omega) hnot

def offsetCount : List Ty → Nat
  | [] => 0
  | t :: ts => offsetCount ts + if (size t).isNone = true ∧ ts ≠ [] then 1 else 0

theorem offsetCount_of_allFixed : ∀ {ts : List Ty}, allFixed ts = true → offsetCount ts = 0
  | [], _ => rfl
  | t :: ts, h => by
    rw [allFixed, List.all_cons, Bool.and_eq_true] at h
    rw [offsetCount, offsetCount_of_allFixed h.2, if_neg]
    rintro ⟨hn, -⟩
    rw [Option.isNone_iff_eq_none] at hn
    rw [hn] at h
    exact absurd h.1 (by decide)

theorem countVariable_sigs (fuel : Nat) : ∀ {ts : List Ty}, Scannable ts →
    (Ty.sigs ts).length < fuel → countVariable fuel (Ty.sigs ts) = some (offsetCount ts) := by
  induction fuel with
  | zero => exact fun _ h => absurd h (Nat.not_lt_zero _)
  | succ fuel ih =>
    intro ts hs hf
    rw [countVariable]
    cases ts with
    | nil => rw [if_pos (show charAt (Ty.sigs []) 0 = 0 from rfl), offsetCount]
    | cons t ts =>
      obtain ⟨hc, hn, hd, ht⟩ := scan_cons ts hs.head
      have hpos := t.sig_pos
      have hend : charAt (Ty.sigs (t :: ts)) t.sig.length ≠ 0 ↔ ts ≠ [] := by
        rw [sigs_cons, charAt_append_length]
        cases ts with
        | nil => exact iff_of_false (fun h => h rfl) (fun h => h rfl)
        | cons u us =>
          rw [sigs_cons, u.charAt_sig_append]
          exact iff_of_true u.head_ne_zero (List.cons_ne_nil _ _)
      rw [length_sigs_cons] at hf
      rw [hc, hn, if_neg t.head_ne_zero]
      dsimp only
      rw [ht, isFixedSize_sig hs.head, hd]
      dsimp only
      rw [ih hs.tail (by omega), Option.map_some, offsetCount]
      refine congrArg some ?_
      cases hk : size t with
      | some k => rfl
      | none =>
        simp only [Option.isSome_none, Bool.not_false, Bool.true_and, decide_eq_true_eq, hend,
          Option.isNone_none, true_and]
        split_ifs <;> rfl

theorem scannable_of_countVariable (fuel : Nat) : ∀ {s : Str} {n : Nat}, (0 : UInt8) ∉ s →
    countVariable fuel s = some n → ∃ ts, s = Ty.sigs ts ∧ Scannable ts := by
  induction fuel with
  | zero => exact fun _ h => nomatch h
  | succ fuel ih =>
    intro s n h0 h
    rw [countVariable] at h
    by_cases hz : charAt s 0 = 0
    · have := (charAt_eq_zero_iff h0 (Nat.zero_le _)).mp hz
      exact ⟨[], List.length_eq_zero_iff.mp this.symm, fun t ht => absurd ht List.not_mem_nil⟩
    rw [if_neg hz] at h
    split at h
    · cases h
    rename_i l hl
    split at h
    · cases h
    obtain ⟨t, hs, -, ht⟩ := signatureElementLength_sound hl
    obtain ⟨k, hk, -⟩ := Option.map_eq_some_iff.mp h
    obtain ⟨ts, hts, hscan⟩ := ih (fun hm => h0 (List.mem_of_mem_drop hm)) hk
    refine ⟨t :: ts, ?_, ?_⟩
    · rw [sigs_cons, ← hts]
      exact hs
    · intro u hu
      rcases List.mem_cons.mp hu with rfl | hu
      · exact ht
      · exact hscan u hu

/-- Members one behind the other. Those of fixed size may end behind `stop` in the outermost
container only. -/
def Ends (root : Bool) (stop : Nat) : List Ty → Nat → List Nat → Prop
  | [], _, [] => True
  | t :: ts, previous, o :: os =>
    alignUp previous (align t) ≤ o ∧ (o ≤ stop ∨ root = true ∧ (size t).isSome = true) ∧
      Ends root stop ts o os
  | _, _, _ => False

theorem Ends.le_of_mem {root : Bool} {stop : Nat} : ∀ {ts : List Ty} {previous : Nat}
    {offs : List Nat}, Ends root stop ts previous offs → ∀ o ∈ offs, previous ≤ o
  | [], _, [], _, o, ho => absurd ho List.not_mem_nil
  | t :: ts, previous, p :: os, h, o, ho => by
    have hle := (le_alignUp previous (align_pos t)).trans h.1
    rcases List.mem_cons.mp ho with rfl | ho
    · exact hle
    · exact hle.trans (h.2.2.le_of_mem o ho)
  | [], _, _ :: _, h, _, _ => h.elim
  | _ :: _, _, [], h, _, _ => h.elim

theorem Ends.inner {root : Bool} {stop : Nat} : ∀ {ts : List Ty} {previous : Nat}
    {offs : List Nat}, Ends root stop ts previous offs → (∀ o ∈ offs, o ≤ stop) →
    Ends false stop ts previous offs
  | [], _, [], _, _ => trivial
  | _ :: _, _, o :: _, h, hle =>
    ⟨h.1, .inl (hle o List.mem_cons_self),
      h.2.2.inner fun p hp => hle p (List.mem_cons_of_mem _ hp)⟩
  | [], _, _ :: _, h, _ => h.elim
  | _ :: _, _, [], h, _ => h.elim

theorem memberOffsets_cons {begin len sz nv fuel v previous : Nat} {table : Bytes} {t : Ty}
    {ts : List Ty} {offs : List Nat} (hs : t.Fits true 0 0)
    (h : memberOffsets begin len sz nv table (fuel + 1) (Ty.sigs (t :: ts)) v previous = .ok offs) :
    ∃ o v' os, offs = o :: os ∧
      memberOffsets begin len sz nv table fuel (Ty.sigs ts) v' o = .ok os ∧
      ((∃ k, size t = some k ∧ o = alignUp previous (align t) + k ∧ v' = v) ∨
        (size t = none ∧ alignUp previous (align t) ≤ o ∧
          ∃ x, variableEnd len sz nv table v = .ok (x, v') ∧ o = begin + x)) := by
  obtain ⟨hc, hn, hd, ht⟩ := scan_cons ts hs
  rw [memberOffsets, hc, hn, if_neg t.head_ne_zero] at h
  dsimp only at h
  rw [ht, hd, getAlignment_sig hs, getSize_sig hs] at h
  dsimp only [Option.getD_some] at h
  cases hk : size t with
  | some k =>
    rw [hk] at h
    dsimp only at h
    cases hm : memberOffsets begin len sz nv table fuel (Ty.sigs ts) v
        (alignUp previous (align t) + k) with
    | error r =>
      rw [hm] at h
      cases h
    | ok os =>
      rw [hm] at h
      cases h
      exact ⟨_, v, os, rfl, hm, .inl ⟨k, rfl, rfl, rfl⟩⟩
  | none =>
    rw [hk] at h
    dsimp only at h
    cases hx : variableEnd len sz nv table v with
    | error r =>
      rw [hx] at h
      cases h
    | ok xv =>
      obtain ⟨x, v'⟩ := xv
      rw [hx] at h
      dsimp only at h
      by_cases hlt : begin + x < alignUp previous (align t)
      · rw [if_pos hlt] at h
        cases h
      rw [if_neg hlt] at h
      cases hm : memberOffsets begin len sz nv table fuel (Ty.sigs ts) v' (begin + x) with
      | error r =>
        rw [hm] at h
        cases h
      | ok os =>
        rw [hm] at h
        cases h
        exact ⟨_, v', os, rfl, hm, .inr ⟨rfl, Nat.le_of_not_lt hlt, x, rfl, rfl⟩⟩

theorem variableEnd_le {len sz nv v x v' : Nat} {table : Bytes}
    (h : variableEnd len sz nv table v = .ok (x, v')) :
    x ≤ len ∧ (v ≠ 0 → v' = v - 1 ∧ x = tableWord sz table (v - 1)) := by
  unfold variableEnd at h
  split_ifs at h with hv
  · cases h
    exact ⟨Nat.sub_le _ _, fun hne => absurd hv hne⟩
  · dsimp only at h
    split_ifs at h with hx
    cases h
    exact ⟨Nat.le_of_not_le hx, fun _ => ⟨rfl, rfl⟩⟩

theorem memberOffsets_ends {begin len sz nv : Nat} {table : Bytes} (fuel : Nat) :
    ∀ {ts : List Ty} {v previous : Nat} {offs : List Nat}, Scannable ts →
    memberOffsets begin len sz nv table fuel (Ty.sigs ts) v previous = .ok offs →
    Ends true (begin + len) ts previous offs := by
  induction fuel with
  | zero => exact fun _ h => nomatch h
  | succ fuel ih =>
    intro ts v previous offs hs h
    cases ts with
    | nil =>
      rw [memberOffsets, if_pos (show charAt (Ty.sigs []) 0 = 0 from rfl)] at h
      cases h
      trivial
    | cons t ts =>
      obtain ⟨o, v', os, rfl, hos, hcase⟩ := memberOffsets_cons hs.head h
      refine ⟨?_, ?_, ih hs.tail hos⟩
      · rcases hcase with ⟨k, -, rfl, -⟩ | ⟨-, hle, -⟩
        · exact Nat.le_add_right _ _
        · exact hle
      · rcases hcase with ⟨k, hk, -, -⟩ | ⟨-, -, x, hx, rfl⟩
        · exact .inr ⟨rfl, by rw [hk]; rfl⟩
        · exact .inl (Nat.add_le_add_left (variableEnd_le hx).1 _)

theorem memberOffsets_le {begin len sz nv : Nat} {table : Bytes} (fuel : Nat) :
    ∀ {ts : List Ty} {previous : Nat} {offs : List Nat}, Scannable ts →
    (Ty.sigs ts).length < fuel →
    memberOffsets begin len sz nv table fuel (Ty.sigs ts) (offsetCount ts) previous = .ok offs →
    fixedEnd (begin + tableWord sz table 0) fuel (Ty.sigs ts) previous ≤ begin + len →
    ∀ o ∈ offs, o ≤ begin + len := by
  induction fuel with
  | zero => exact fun _ h => absurd h (Nat.not_lt_zero _)
  | succ fuel ih =>
    intro ts previous offs hs hf h hroom
    cases ts with
    | nil =>
      rw [memberOffsets, if_pos (show charAt (Ty.sigs []) 0 = 0 from rfl)] at h
      cases h
      exact fun o ho => absurd ho List.not_mem_nil
    | cons t ts =>
      obtain ⟨o, v', os, rfl, hos, hcase⟩ := memberOffsets_cons hs.head h
      have hpos := t.sig_pos
      rw [length_sigs_cons] at hf
      rw [fixedEnd_cons hs.head] at hroom
      rcases hcase with ⟨k, hk, rfl, rfl⟩ | ⟨hk, -, x, hx, rfl⟩
      · have hcount : offsetCount (t :: ts) = offsetCount ts := by
          rw [offsetCount, hk, if_neg fun hn => Bool.false_ne_true hn.1, Nat.add_zero]
        rw [hcount] at hos
        rw [hk] at hroom
        have hrest := ih hs.tail (by omega) hos hroom
        intro p hp
        rcases List.mem_cons.mp hp with rfl | hp
        · have hends := memberOffsets_ends fuel hs.tail hos
          cases os with
          | nil =>
            -- nothing is behind this member, so the layout ends with it
            cases ts with
            | nil => rwa [fixedEnd_nil] at hroom
            | cons u us => exact hends.elim
          | cons q qs =>
            exact (hends.le_of_mem q List.mem_cons_self).trans (hrest q List.mem_cons_self)
        · exact hrest p hp
      · obtain ⟨hxle, hword⟩ := variableEnd_le hx
        rw [hk] at hroom
        intro p hp
        rcases List.mem_cons.mp hp with rfl | hmem
        · exact Nat.add_le_add_left hxle _
        · have hne : ts ≠ [] := by
            rintro rfl
            have hends := memberOffsets_ends fuel hs.tail hos
            cases os with
            | nil => exact absurd hmem List.not_mem_nil
            | cons q qs => exact hends.elim
          have hcount : offsetCount (t :: ts) = offsetCount ts + 1 := by
            rw [offsetCount, hk, if_pos ⟨rfl, hne⟩]
          obtain ⟨rfl, rfl⟩ := hword (by rw [hcount]; exact Nat.succ_ne_zero _)
          rw [hcount, Nat.add_sub_cancel] at hos
          refine ih hs.tail (by omega) hos ?_ p hmem
          -- the first word of the table is the end of this member, or of one behind it
          cases hall : allFixed ts with
          | true => rwa [offsetCount_of_allFixed hall]
          | false => rwa [fixedEnd_eq fuel _ (begin + tableWord sz table 0) hs.tail (by omega) hall]

/-! ## The item the cursor is at -/

inductive Behind (c : Container) : Ty → List Ty → Prop
  | variant {t : Ty} (hc : c.enclosing = sdBusTypeVariant) : Behind c t []
  | fixed {t : Ty} {k : Nat} (hc : c.enclosing = sdBusTypeArray)
      (hs : strempty c.signature = t.sig) (hk : size t = some k) (hb : align t ∣ c.begin) :
      Behind c t []
  | element {t : Ty} {p q : List Nat} {o : Nat} (hc : c.enclosing = sdBusTypeArray)
      (hs : strempty c.signature = t.sig) (hk : size t = none)
      (ho : c.offsets = p ++ o :: q) (hi : p.length = c.offsetIndex)
      (hb : c.begin ≤ o) (he : Ends false c.stop (q.map fun _ => t) o q) : Behind c t []
  | member {t : Ty} {rest : List Ty} {p q : List Nat} {o : Nat}
      (hc : c.enclosing ≠ sdBusTypeArray) (hv : c.enclosing ≠ sdBusTypeVariant)
      (ho : c.offsets = p ++ o :: q) (hi : p.length = c.offsetIndex)
      (hb : c.begin ≤ o) (he : Ends (c.enclosing = 0) c.stop rest o q) : Behind c t rest

structure GoesOn (c : Container) (t : Ty) (rest : List Ty) : Prop where
  types : ∃ done, strempty c.signature = Ty.sigs (done ++ t :: rest) ∧
    Scannable (done ++ t :: rest) ∧ c.index = (Ty.sigs done).length
  behind : Behind c t rest

structure Current (c : Container) (r : Nat) (t : Ty) (rest : List Ty) : Prop
    extends GoesOn c t rest where
  aligned : align t ∣ r
  begins : c.begin ≤ r
  ends : r + c.itemSize ≤ c.stop ∨ c.enclosing = 0 ∧ (size t).isSome = true

def Placed (c : Container) (r : Nat) : Prop :=
  c.rest = [] ∨ (c.enclosing = sdBusTypeArray ∧ c.stop ≤ r) ∨ ∃ t rest, Current c r t rest

theorem GoesOn.rest {c : Container} {t : Ty} {rest : List Ty} (h : GoesOn c t rest) :
    c.rest = Ty.sigs (t :: rest) := by
  obtain ⟨done, hs, -, hi⟩ := h.types
  rw [Container.rest, hs, hi, Ty.sigs_append, List.drop_left]

theorem GoesOn.scannable {c : Container} {t : Ty} {rest : List Ty} (h : GoesOn c t rest) :
    Scannable (t :: rest) := by
  obtain ⟨done, -, hs, -⟩ := h.types
  exact fun u hu => hs u (List.mem_append_right _ hu)

theorem GoesOn.types_next {c c' : Container} {t u : Ty} {rest : List Ty}
    (h : GoesOn c t (u :: rest)) (hs : c'.signature = c.signature)
    (hi : c'.index = c.index + t.sig.length) :
    ∃ done, strempty c'.signature = Ty.sigs (done ++ u :: rest) ∧
      Scannable (done ++ u :: rest) ∧ c'.index = (Ty.sigs done).length := by
  obtain ⟨done, hsig, hscan, hidx⟩ := h.types
  refine ⟨done ++ [t], ?_, ?_, ?_⟩
  · rw [hs, hsig, List.append_assoc, List.singleton_append]
  · rwa [List.append_assoc, List.singleton_append]
  · rw [hi, hidx, Ty.sigs_append, Ty.sigs_singleton, List.length_append]

theorem GoesOn.rest_last {c c' : Container} {t : Ty} (h : GoesOn c t [])
    (hs : c'.signature = c.signature) (hi : c'.index = c.index + t.sig.length) : c'.rest = [] := by
  obtain ⟨done, hsig, -, hidx⟩ := h.types
  rw [Container.rest, hs, hsig, hi, hidx, Ty.sigs_append, Ty.sigs_singleton,
    ← List.length_append]
  exact List.drop_length

theorem getD_offset {before after : List Nat} {o : Nat} :
    (before ++ o :: after).getD before.length 0 = o := by
  rw [List.getD_append_right _ _ _ _ le_rfl, Nat.sub_self, List.getD_cons_zero]

theorem getD_offset_next {before after : List Nat} {o p : Nat} :
    (before ++ o :: p :: after).getD (before.length + 1) 0 = p := by
  rw [List.getD_append_right _ _ _ _ (Nat.le_add_right _ 1), Nat.add_sub_cancel_left,
    List.getD_cons_succ, List.getD_cons_zero]

theorem length_offsets_le {before after : List Nat} {o : Nat} :
    (before ++ o :: after).length ≤ before.length + 1 ↔ after = [] := by
  rw [List.length_append, List.length_cons, ← List.length_eq_zero_iff]
  omega

theorem toNext_eq {c : Container} {before after : List Nat} {o p : Nat} (a : Nat)
    (ho : c.offsets = before ++ o :: p :: after) (hi : before.length = c.offsetIndex) :
    c.toNext a = ({ c with itemSize := p - alignUp o a, offsetIndex := c.offsetIndex + 1 },
      alignUp o a) := by
  rw [Container.toNext, ho, ← hi, getD_offset, getD_offset_next]

theorem GoesOn.next_fixed {c c' : Container} {t : Ty} {r k : Nat} (h : GoesOn c t [])
    (hc : c.enclosing = sdBusTypeArray) (hs : strempty c.signature = t.sig)
    (hk : size t = some k) (hb : align t ∣ c.begin) (hn : containerNextItem c = .ok (c', r)) :
    Placed (c'.advance t.sig.length) r := by
  rw [containerNextItem, if_pos hc, hs, getSize_sig h.scannable.head, hk] at hn
  dsimp only at hn
  split_ifs at hn with hend
  · cases hn
    rw [Container.advance, if_pos hc]
    exact .inr (.inl ⟨hc, le_rfl⟩)
  · cases hn
    rw [Container.advance, if_pos hc]
    refine .inr (.inr ⟨t, [], ⟨h.types, .fixed hc hs hk hb⟩, ?_, Nat.le_add_right _ _, .inl ?_⟩)
    · exact (Nat.dvd_add_right hb).mpr ((align_dvd_size hk).mul_left _)
    · have hmul := Nat.mul_le_of_le_div k (c.offsetIndex + 1 + 1) (c.stop - c.begin)
        (Nat.lt_of_not_le hend)
      have hpos := size_pos h.scannable.head hk
      rw [Nat.succ_mul] at hmul
      dsimp only
      omega

theorem GoesOn.next_element {c c' : Container} {t : Ty} {r o : Nat} {before after : List Nat}
    (h : GoesOn c t []) (hc : c.enclosing = sdBusTypeArray) (hs : strempty c.signature = t.sig)
    (hk : size t = none) (ho : c.offsets = before ++ o :: after)
    (hi : before.length = c.offsetIndex) (hb : c.begin ≤ o)
    (he : Ends false c.stop (after.map fun _ => t) o after)
    (hn : containerNextItem c = .ok (c', r)) : Placed (c'.advance t.sig.length) r := by
  rw [containerNextItem, if_pos hc, hs, getSize_sig h.scannable.head, hk,
    getAlignment_sig h.scannable.head] at hn
  dsimp only at hn
  rw [ho, ← hi] at hn
  simp only [length_offsets_le] at hn
  cases after with
  | nil =>
    rw [if_pos rfl] at hn
    cases hn
    rw [Container.advance, if_pos hc]
    exact .inr (.inl ⟨hc, le_rfl⟩)
  | cons p after =>
    rw [if_neg (List.cons_ne_nil _ _), Option.getD_some, toNext_eq _ ho hi] at hn
    cases hn
    rw [Container.advance, if_pos hc]
    obtain ⟨hle, hstop, hrest⟩ := he
    have halign := le_alignUp o (align_pos t)
    refine .inr (.inr ⟨t, [], ⟨h.types, ?_⟩, dvd_alignUp _ _, hb.trans halign, .inl ?_⟩)
    · refine .element (p := before ++ [o]) hc hs hk ?_ ?_ (hb.trans (halign.trans hle)) hrest
      · rw [List.append_assoc, List.singleton_append]
        exact ho
      · rw [List.length_append, List.length_singleton, hi]
    · rcases hstop with hstop | ⟨hf, -⟩
      · rwa [Nat.add_sub_cancel' hle]
      · exact absurd hf Bool.false_ne_true

theorem GoesOn.next_member {c c' : Container} {t : Ty} {rest : List Ty} {r o : Nat}
    {before after : List Nat} (h : GoesOn c t rest) (hc : c.enclosing ≠ sdBusTypeArray)
    (hv : c.enclosing ≠ sdBusTypeVariant) (ho : c.offsets = before ++ o :: after)
    (hi : before.length = c.offsetIndex) (hb : c.begin ≤ o)
    (he : Ends (c.enclosing = 0) c.stop rest o after) (hn : containerNextItem c = .ok (c', r)) :
    Placed (c'.advance t.sig.length) r := by
  rw [containerNextItem, if_neg hc, if_neg hv, ho, ← hi] at hn
  simp only [length_offsets_le] at hn
  cases after with
  | nil =>
    cases rest with
    | cons u rest => exact he.elim
    | nil =>
      rw [if_pos rfl] at hn
      cases hn
      rw [Container.advance, if_neg hc]
      exact .inl (h.rest_last rfl rfl)
  | cons p after =>
    cases rest with
    | nil => exact he.elim
    | cons u rest =>
      obtain ⟨-, hlen, hdrop, -⟩ := scan_cons (u :: rest) h.scannable.head
      obtain ⟨-, hlen', -, htake⟩ := scan_cons rest h.scannable.tail.head
      rw [if_neg (List.cons_ne_nil _ _), h.rest, hlen] at hn
      dsimp only at hn
      rw [hdrop, hlen'] at hn
      dsimp only at hn
      rw [htake, getAlignment_sig h.scannable.tail.head, Option.getD_some, toNext_eq _ ho hi] at hn
      cases hn
      rw [Container.advance, if_neg hc]
      obtain ⟨hle, hstop, hrest⟩ := he
      have halign := le_alignUp o (align_pos u)
      refine .inr (.inr ⟨u, rest, ⟨h.types_next rfl rfl, ?_⟩, dvd_alignUp _ _, hb.trans halign,
        ?_⟩)
      · refine .member (p := before ++ [o]) hc hv ?_ ?_ (hb.trans (halign.trans hle)) hrest
        · rw [List.append_assoc, List.singleton_append]
          exact ho
        · rw [List.length_append, List.length_singleton, hi]
      · rcases hstop with hstop | ⟨hroot, hsome⟩
        · left
          dsimp only
          rwa [Nat.add_sub_cancel' hle]
        · exact .inr ⟨of_decide_eq_true hroot, hsome⟩

theorem GoesOn.next {c c' : Container} {t : Ty} {rest : List Ty} {r : Nat} (h : GoesOn c t rest)
    (hn : containerNextItem c = .ok (c', r)) : Placed (c'.advance t.sig.length) r := by
  cases h.behind with
  | variant hc =>
    have hne : c.enclosing ≠ sdBusTypeArray := by
      rw [hc]
      decide
    rw [containerNextItem, if_neg hne, if_pos hc] at hn
    cases hn
    rw [Container.advance, if_neg hne]
    exact .inl (h.rest_last rfl rfl)
  | fixed hc hs hk hb => exact h.next_fixed hc hs hk hb hn
  | element hc hs hk ho hi hb he => exact h.next_element hc hs hk ho hi hb he hn
  | member hc hv ho hi hb he => exact h.next_member hc hv ho hi hb he hn

theorem messagePeekBody_ok {m : Inbound} {rindex a n ri : Nat} {q : Bytes}
    (h : messagePeekBody m rindex a n = .ok (q, ri)) :
    q = slice m.body (alignUp rindex a) n ∧ ri = alignUp rindex a + n ∧
      ri ≤ m.userBodySize ∧ ri ≤ m.body.length := by
  unfold messagePeekBody at h
  dsimp only at h
  split_ifs at h with h1 h2 h3 h4
  cases h
  exact ⟨rfl, rfl, Nat.le_of_not_lt h1, Nat.le_of_not_lt h4⟩

theorem buildStructOffsets_ends {m : Inbound} {ts : List Ty} {len : Nat} {x : Entered}
    (hs : Scannable ts) (hne : ts ≠ []) (h : buildStructOffsets m (Ty.sigs ts) len = .ok x) :
    x.rindex = m.rindex ∧ x.itemSize = x.offsets.headD 0 - m.rindex ∧
      m.rindex + len ≤ m.userBodySize ∧ m.rindex + len ≤ m.body.length ∧
      Ends true (m.rindex + len) ts m.rindex x.offsets ∧
      (m.membersEnd (Ty.sigs ts) len ≤ m.rindex + len →
        Ends false (m.rindex + len) ts m.rindex x.offsets) := by
  have hcount := countVariable_sigs _ hs (Nat.lt_succ_self (Ty.sigs ts).length)
  have hpos := Ty.sigs_pos hne
  unfold buildStructOffsets at h
  rw [if_neg (List.ne_nil_of_length_pos hpos), hcount] at h
  dsimp only at h
  by_cases hfit : len < offsetCount ts * wordSize len
  · rw [if_pos hfit] at h
    cases h
  rw [if_neg hfit] at h
  split at h
  · cases h
  rename_i table ri hpeek
  obtain ⟨rfl, hri, hle, hlen⟩ := messagePeekBody_ok hpeek
  obtain ⟨offs, hoffs, rfl⟩ := exists_of_map h
  rw [alignUp_one] at hri hoffs
  have hends := memberOffsets_ends _ hs hoffs
  refine ⟨rfl, rfl, by omega, by omega, hends, fun hroom => hends.inner ?_⟩
  refine memberOffsets_le _ hs (Nat.lt_succ_self _) hoffs ?_
  simp only [Inbound.membersEnd, hcount, Option.getD_some] at hroom
  exact hroom

structure EntersAt (m : Inbound) (t : Ty) (type : UInt8) (contents : Str) (x : Entered) : Prop where
  skip : signatureSkip type contents = t.sig.length
  rindex : x.rindex = m.rindex
  notRoot : type ≠ 0
  stop : (m.newContainer type contents x).stop = m.rindex + m.last.itemSize
  fits : m.rindex + m.last.itemSize ≤ m.last.stop ∨ m.rindex + m.last.itemSize ≤ m.userBodySize
  placed : Placed (m.newContainer type contents x) m.rindex

theorem alignUp_le_of_dvd {l a x : Nat} (ha : 0 < a) (hd : a ∣ x) (h : l ≤ x) :
    alignUp l a ≤ x := by
  obtain ⟨k, rfl⟩ := hd
  obtain ⟨j, hj⟩ := dvd_alignUp l a
  have hlt := alignUp_lt l ha
  rw [hj] at hlt ⊢
  have : j < k + 1 := Nat.lt_of_mul_lt_mul_left (a := a) (by rw [Nat.mul_succ]; omega)
  exact Nat.mul_le_mul_left a (Nat.le_of_lt_succ this)

theorem arrayOffsets_ends {r len sz a : Nat} {table : Bytes} {t : Ty} (ha : 0 < a)
    (hd : align t ∣ a) (hr : align t ∣ r) (n : Nat) : ∀ {i previous : Nat} {offs : List Nat},
    arrayOffsets r len sz a table n i previous = .ok offs →
    offs.length = n ∧ Ends false (r + len) (offs.map fun _ => t) (r + previous) offs := by
  induction n with
  | zero =>
    intro i previous offs h
    cases h
    exact ⟨rfl, trivial⟩
  | succ n ih =>
    intro i previous offs h
    rw [arrayOffsets] at h
    split_ifs at h with hlen hle
    obtain ⟨os, hos, rfl⟩ := exists_of_map h
    obtain ⟨hn, hends⟩ := ih hos
    refine ⟨congrArg (· + 1) hn, ?_, .inl (by omega), hends⟩
    rw [alignUp_add_of_dvd (align_pos t) hr]
    refine Nat.add_le_add_left ((alignUp_le_of_dvd (align_pos t) ?_ ?_).trans
      (Nat.le_of_not_lt hle)) r
    · exact hd.trans (dvd_alignUp _ _)
    · exact le_alignUp _ ha

theorem newContainer_types {t : Ty} {ts : List Ty} (m : Inbound) (type : UInt8) (x : Entered)
    (hs : Scannable (t :: ts)) :
    ∃ done, strempty (m.newContainer type (Ty.sigs (t :: ts)) x).signature =
        Ty.sigs (done ++ t :: ts) ∧ Scannable (done ++ t :: ts) ∧
      (m.newContainer type (Ty.sigs (t :: ts)) x).index = (Ty.sigs done).length :=
  ⟨[], rfl, hs, rfl⟩

theorem newContainer_stop {m : Inbound} {type : UInt8} {contents : Str} {x : Entered}
    (h : contents ≠ []) (hr : x.rindex = m.rindex) :
    (m.newContainer type contents x).stop = m.rindex + m.last.itemSize := by
  rw [Inbound.newContainer]
  dsimp only
  rw [if_neg fun hc => h hc.2, hr]

theorem sig_ne_nil (t : Ty) : t.sig ≠ [] := List.ne_nil_of_length_pos t.sig_pos

theorem GoesOn.cur {c : Container} {t : Ty} {rest : List Ty} (h : GoesOn c t rest) :
    c.cur = t.head := by
  rw [Container.cur, h.rest, sigs_cons, t.charAt_sig_append]

theorem GoesOn.zero_notMem {c : Container} {t : Ty} {rest : List Ty} {p r : Str}
    (h : GoesOn c t rest) (hr : c.rest.drop 1 = p ++ r) : (0 : UInt8) ∉ p := fun hm => by
  have hm' : (0 : UInt8) ∈ c.rest.drop 1 := hr ▸ List.mem_append_left r hm
  rw [h.rest] at hm'
  exact Ty.zero_notMem_sigs _ (List.mem_of_mem_drop hm')

theorem isPrefix_of_isPrefixOf {s p : Str} (h : ¬p.isPrefixOf s = false) : ∃ r, s = p ++ r := by
  obtain ⟨r, hr⟩ := List.isPrefixOf_iff_prefix.mp (Bool.eq_true_of_not_eq_false h)
  exact ⟨r, hr.symm⟩

theorem wordSize_le {n : Nat} (h : n ≠ 0) : 0 < wordSize n ∧ wordSize n ≤ n := by
  unfold wordSize
  split_ifs <;> omega

theorem eq_array_of_head {t : Ty} (h : t.head = sdBusTypeArray) : ∃ u, t = .array u := by
  cases t with
  | array u => exact ⟨u, rfl⟩
  | basic b => exact absurd h b.code_ne_array
  | variant => cases h
  | struct ts => cases h
  | dictEntry k v => cases h

theorem eq_variant_of_head {t : Ty} (h : t.head = sdBusTypeVariant) : t = .variant := by
  cases t with
  | variant => rfl
  | basic b => exact absurd h b.code_ne_variant
  | array u => cases h
  | struct ts => cases h
  | dictEntry k v => cases h

theorem busMessageEnterArray_at {m : Inbound} {t : Ty} {rest : List Ty} {contents : Str}
    {x : Entered} (h : Current m.last m.rindex t rest)
    (hx : busMessageEnterArray m m.last contents = .ok x)
    (hroom : m.hasRoom sdBusTypeArray contents = true) :
    EntersAt m t sdBusTypeArray contents x := by
  unfold busMessageEnterArray at hx
  by_cases hsingle : signatureIsSingle contents true = false
  · rw [if_pos hsingle] at hx
    cases hx
  rw [if_neg hsingle] at hx
  by_cases hcur : m.last.cur ≠ sdBusTypeArray
  · rw [if_pos hcur] at hx
    cases hx
  rw [if_neg hcur] at hx
  by_cases hprefix : contents.isPrefixOf (m.last.rest.drop 1) = false
  · rw [if_pos hprefix] at hx
    cases hx
  rw [if_neg hprefix] at hx
  obtain ⟨r, hr⟩ := isPrefix_of_isPrefixOf hprefix
  rw [not_not, h.cur] at hcur
  obtain ⟨u, rfl⟩ := eq_array_of_head hcur
  have h0 := h.zero_notMem hr
  rw [h.rest, sigs_cons, Ty.sig, List.cons_append, List.drop_succ_cons, List.drop_zero] at hr
  obtain ⟨v, rfl, -⟩ := (signatureIsSingle_iff h0 true).mp (Bool.eq_true_of_not_eq_false hsingle)
  obtain ⟨rfl, -⟩ := Ty.sig_append_inj u v _ _ hr
  have hscan := scannable_array h.scannable.head
  have hdvd : align u ∣ m.rindex := by
    have := h.aligned
    rwa [align] at this
  have hends : m.rindex + m.last.itemSize ≤ m.last.stop := by
    rcases h.ends with hle | ⟨-, hsome⟩
    · exact hle
    · cases hsome
  have hskip : signatureSkip sdBusTypeArray u.sig = (Ty.array u).sig.length := by
    rw [signatureSkip, if_pos rfl, Ty.sig, List.length_cons, Nat.add_comm]
  have henters : ∀ {x : Entered}, x.rindex = m.rindex →
      Placed (m.newContainer sdBusTypeArray u.sig x) m.rindex →
      EntersAt m (.array u) sdBusTypeArray u.sig x := fun {x} hri hp =>
    { skip := hskip, rindex := hri, notRoot := by decide
      stop := newContainer_stop (sig_ne_nil u) hri, fits := .inl hends, placed := hp }
  have htypes := fun x => newContainer_types m sdBusTypeArray x hscan
  rw [Ty.sigs_singleton] at htypes
  by_cases hempty : m.last.itemSize = 0
  · rw [if_pos hempty] at hx
    cases hx
    refine henters rfl (.inr (.inl ⟨rfl, ?_⟩))
    rw [newContainer_stop (sig_ne_nil u) rfl, hempty]
    exact le_rfl
  rw [if_neg hempty, isFixedSize_sig hscan.head, getSize_sig hscan.head] at hx
  cases hk : size u with
  | some k =>
    rw [hk, Option.isSome_some, if_pos (by decide)] at hx
    cases hx
    refine henters rfl (.inr (.inr ⟨u, [], ⟨htypes _, .fixed rfl rfl hk hdvd⟩, hdvd, le_rfl,
      .inl ?_⟩))
    rw [newContainer_stop (sig_ne_nil u) rfl]
    rw [Inbound.hasRoom, if_pos rfl, getSize_sig hscan.head, hk, Bool.or_eq_true,
      decide_eq_true_eq, decide_eq_true_eq] at hroom
    exact Nat.add_le_add_left (hroom.resolve_left hempty) _
  | none =>
    rw [hk, Option.isSome_none, if_neg (by decide)] at hx
    obtain ⟨done, hsig, hall, -⟩ := h.types
    rw [hsig, getAlignment_sigs hall] at hx
    dsimp only at hx
    split at hx
    · cases hx
    rename_i q ri hpeek
    by_cases hframing : m.last.itemSize - wordSize m.last.itemSize < getWord .little q
    · rw [if_pos hframing] at hx
      cases hx
    rw [if_neg hframing] at hx
    by_cases hmod : (m.last.itemSize - getWord .little q) % wordSize m.last.itemSize ≠ 0
    · rw [if_pos hmod] at hx
      cases hx
    rw [if_neg hmod] at hx
    split at hx
    · cases hx
    obtain ⟨offs, hoffs, rfl⟩ := exists_of_map hx
    have halign : align u ∣ aligns (done ++ .array u :: rest) := by
      have := align_dvd_aligns (List.mem_append_right done (List.mem_cons_self (a := .array u)
        (l := rest)))
      rwa [align] at this
    obtain ⟨hn, hoffsEnds⟩ := arrayOffsets_ends (isAlign_aligns _).pos halign hdvd _ hoffs
    -- the word read says that there is an offset at least
    have hpos : 0 < offs.length := by
      obtain ⟨hsz, hle⟩ := wordSize_le hempty
      rw [hn]
      exact Nat.div_pos (by omega) hsz
    refine henters rfl ?_
    cases offs with
    | nil => exact absurd hpos (Nat.lt_irrefl 0)
    | cons o os =>
      obtain ⟨hle, hstop, htail⟩ := hoffsEnds
      rw [Nat.add_zero, alignUp_of_dvd (align_pos u) hdvd] at hle
      refine .inr (.inr ⟨u, [], ⟨htypes _, .element (p := []) rfl rfl hk rfl rfl hle ?_⟩,
        hdvd, le_rfl, .inl ?_⟩)
      · rw [newContainer_stop (sig_ne_nil u) rfl]
        exact htail
      · rw [newContainer_stop (sig_ne_nil u) rfl]
        rcases hstop with hstop | ⟨hf, -⟩
        · rwa [Inbound.newContainer, List.headD_cons, Nat.add_sub_cancel' hle]
        · exact absurd hf Bool.false_ne_true

theorem busMessageEnterVariant_at {m : Inbound} {t : Ty} {rest : List Ty} {contents : Str}
    {x : Entered} (h : Current m.last m.rindex t rest) (h0 : (0 : UInt8) ∉ contents)
    (hx : busMessageEnterVariant m m.last contents = .ok x) :
    EntersAt m t sdBusTypeVariant contents x := by
  unfold busMessageEnterVariant at hx
  dsimp only at hx
  by_cases hsingle : signatureIsSingle contents false = false
  · rw [if_pos hsingle] at hx
    cases hx
  rw [if_neg hsingle] at hx
  by_cases hdict : charAt contents 0 = sdBusTypeDictEntryBegin
  · rw [if_pos hdict] at hx
    cases hx
  rw [if_neg hdict] at hx
  by_cases hcur : m.last.cur ≠ sdBusTypeVariant
  · rw [if_pos hcur] at hx
    cases hx
  rw [if_neg hcur] at hx
  by_cases hsize : m.last.itemSize < 1 + contents.length
  · rw [if_pos hsize] at hx
    cases hx
  rw [if_neg hsize] at hx
  split at hx
  · cases hx
  rw [not_not, h.cur] at hcur
  obtain rfl := eq_variant_of_head hcur
  obtain ⟨u, rfl, hu⟩ := (signatureIsSingle_iff h0 false).mp (Bool.eq_true_of_not_eq_false hsingle)
  have hscan := scannable_singleton (hu.mono (fun _ => rfl) le_rfl le_rfl)
  have hends : m.rindex + m.last.itemSize ≤ m.last.stop := by
    rcases h.ends with hle | ⟨-, hsome⟩
    · exact hle
    · cases hsome
  have hdvd : align u ∣ m.rindex := by
    have := h.aligned
    rw [align] at this
    exact ((isAlign_align u).dvd (.inr (.inr (.inr rfl))) (isAlign_align u).le).trans this
  have htypes := newContainer_types m sdBusTypeVariant x hscan
  rw [Ty.sigs_singleton] at htypes
  split_ifs at hx
  cases hx
  refine { skip := rfl, rindex := rfl, notRoot := by decide
           stop := newContainer_stop (sig_ne_nil u) rfl, fits := .inl hends
           placed := .inr (.inr ⟨u, [], ⟨htypes, .variant rfl⟩, hdvd, le_rfl, .inl ?_⟩) }
  rw [newContainer_stop (sig_ne_nil u) rfl]
  exact Nat.add_le_add_left (Nat.sub_le _ _) _

theorem enterMembers_at {m : Inbound} {t : Ty} {rest ts : List Ty} {type : UInt8} {x : Entered}
    (h : Current m.last m.rindex t rest) (ho : Opens t ts)
    (htype : type = sdBusTypeStruct ∨ type = sdBusTypeDictEntry)
    (hx : buildStructOffsets m (Ty.sigs ts) m.last.itemSize = .ok x)
    (hroom : m.hasRoom type (Ty.sigs ts) = true) : EntersAt m t type (Ty.sigs ts) x := by
  obtain ⟨hri, hitem, huser, -, -, hends⟩ := buildStructOffsets_ends ho.scannable ho.ne hx
  have hkinds : type ≠ sdBusTypeArray ∧ type ≠ sdBusTypeVariant ∧ type ≠ 0 := by
    rcases htype with rfl | rfl <;> decide
  obtain ⟨harray, hvariant, hroot⟩ := hkinds
  rw [Inbound.hasRoom, if_neg harray, if_neg hvariant, decide_eq_true_eq] at hroom
  have hne : Ty.sigs ts ≠ [] := List.ne_nil_of_length_pos (Ty.sigs_pos ho.ne)
  have hstop : (m.newContainer type (Ty.sigs ts) x).stop = _ := newContainer_stop hne hri
  refine { skip := ?_, rindex := hri, notRoot := hroot, stop := hstop, fits := .inr huser
           placed := ?_ }
  · rw [signatureSkip, if_neg harray, if_neg hvariant, ho.length]
    omega
  · replace hends := hends hroom
    cases hts : ts with
    | nil => exact absurd hts ho.ne
    | cons u us =>
      rw [hts] at hends hstop
      cases hoffs : x.offsets with
      | nil =>
        rw [hoffs] at hends
        exact hends.elim
      | cons o os =>
        rw [hoffs] at hends hitem
        obtain ⟨hle, hle', htail⟩ := hends
        have hdvd : align u ∣ m.rindex := by
          have hmem := align_dvd_aligns (hts ▸ List.mem_cons_self : u ∈ ts)
          exact (hmem.trans (ho.align ▸ dvd_rfl)).trans h.aligned
        rw [alignUp_of_dvd (align_pos u) hdvd] at hle
        have hnot : decide (type = 0) = false := decide_eq_false hroot
        refine .inr (.inr ⟨u, us, ⟨newContainer_types m type x (hts ▸ ho.scannable),
          .member (p := []) harray hvariant hoffs rfl (hri.le.trans hle) ?_⟩, hdvd, ?_, .inl ?_⟩)
        · rw [hstop]
          exact hnot.symm ▸ htail
        · exact hri.le
        · rw [hstop]
          rcases hle' with hle' | ⟨hf, -⟩
          · rwa [Inbound.newContainer, hitem, List.headD_cons, Nat.add_sub_cancel' hle]
          · exact absurd hf Bool.false_ne_true

theorem hasMembers_ok {c : Container} {first last : UInt8} {contents : Str} (hl : last ≠ 0)
    (h : ¬c.hasMembers first last contents = false) :
    c.cur = first ∧ ∃ r, c.rest.drop 1 = contents ++ ([last] ++ r) := by
  rw [Bool.not_eq_false, Container.hasMembers, Bool.and_eq_true, Bool.and_eq_true,
    decide_eq_true_eq, decide_eq_true_eq] at h
  obtain ⟨⟨hcur, hprefix⟩, hlast⟩ := h
  obtain ⟨r, hr⟩ := List.isPrefixOf_iff_prefix.mp hprefix
  rw [← hr, charAt_append_length] at hlast
  refine ⟨hcur, r.drop 1, ?_⟩
  rw [← hr, eq_cons_of_charAt hl hlast]
  rfl

theorem busMessageEnterStruct_at {m : Inbound} {t : Ty} {rest : List Ty} {contents : Str}
    {x : Entered} (h : Current m.last m.rindex t rest)
    (hx : busMessageEnterStruct m m.last contents = .ok x)
    (hroom : m.hasRoom sdBusTypeStruct contents = true) :
    EntersAt m t sdBusTypeStruct contents x := by
  unfold busMessageEnterStruct at hx
  split_ifs at hx with hvalid hmembers
  obtain ⟨hcur, r, hr⟩ := hasMembers_ok (by decide) hmembers
  obtain ⟨ts, rfl, -, -⟩ := (signatureIsValid_iff (h.zero_notMem hr) false).mp
    (Bool.eq_true_of_not_eq_false hvalid)
  rw [h.cur] at hcur
  obtain ⟨us, rfl⟩ : ∃ us, t = .struct us := by
    cases t with
    | struct us => exact ⟨us, rfl⟩
    | basic b => exact absurd hcur b.code_ne_struct
    | variant => cases hcur
    | array u => cases hcur
    | dictEntry k v => cases hcur
  rw [h.rest, sigs_cons, Ty.sig, List.cons_append, List.drop_succ_cons, List.drop_zero,
    List.append_assoc] at hr
  obtain ⟨rfl, -⟩ := Ty.sigs_append_inj us ts _ _ _ Ty.head_ne_structEnd hr
  exact enterMembers_at h (opens_struct h.scannable.head) (.inl rfl) hx hroom

theorem busMessageEnterDictEntry_at {m : Inbound} {t : Ty} {rest : List Ty} {contents : Str}
    {x : Entered} (h : Current m.last m.rindex t rest)
    (hx : busMessageEnterDictEntry m m.last contents = .ok x)
    (hroom : m.hasRoom sdBusTypeDictEntry contents = true) :
    EntersAt m t sdBusTypeDictEntry contents x := by
  unfold busMessageEnterDictEntry at hx
  split_ifs at hx with hpair harray hmembers
  obtain ⟨hcur, r, hr⟩ := hasMembers_ok (by decide) hmembers
  obtain ⟨k, v, rfl, -⟩ := (signatureIsPair_iff (h.zero_notMem hr)).mp
    (Bool.eq_true_of_not_eq_false hpair)
  rw [h.cur] at hcur
  obtain ⟨k', v', rfl⟩ : ∃ k' v', t = .dictEntry k' v' := by
    cases t with
    | dictEntry k' v' => exact ⟨k', v', rfl⟩
    | basic b => exact absurd hcur b.code_ne_dict
    | variant => cases hcur
    | array u => cases hcur
    | struct us => cases hcur
  have hpairs : ∀ (k : Basic) (v : Ty), k.code :: v.sig = Ty.sigs [.basic k, v] := fun k v => by
    simp only [Ty.sigs, Ty.sig, List.singleton_append, List.append_nil]
  rw [h.rest, sigs_cons, Ty.sig, List.cons_append, List.drop_succ_cons, List.drop_zero,
    List.cons_append, List.append_assoc, ← List.cons_append, hpairs, hpairs] at hr
  obtain ⟨heq, -⟩ := Ty.sigs_append_inj _ _ _ _ _ Ty.head_ne_dictEnd hr
  rw [hpairs, ← heq] at hx hroom ⊢
  exact enterMembers_at h (opens_dictEntry h.scannable.head) (.inr rfl) hx hroom

theorem enterByType_at {m : Inbound} {t : Ty} {rest : List Ty} {type : UInt8} {contents : Str}
    {x : Entered} (h : Current m.last m.rindex t rest)
    (h0 : type = sdBusTypeVariant → (0 : UInt8) ∉ contents)
    (hx : enterByType m type contents = .ok x) (hroom : m.hasRoom type contents = true) :
    EntersAt m t type contents x := by
  unfold enterByType at hx
  split_ifs at hx with ha hv hs hd
  · subst ha
    exact busMessageEnterArray_at h hx hroom
  · subst hv
    exact busMessageEnterVariant_at h (h0 rfl) hx
  · subst hs
    exact busMessageEnterStruct_at h hx hroom
  · subst hd
    exact busMessageEnterDictEntry_at h hx hroom

/-! ## Contents of a variant -/

theorem variantContents_zero {m : Inbound} {itemSize : Nat} (fuel : Nat) : ∀ {k : Nat} {s : Str},
    variantContents m itemSize fuel k = .ok s → (0 : UInt8) ∉ s := by
  induction fuel with
  | zero => exact fun h => nomatch h
  | succ fuel ih =>
    intro k s h
    rw [variantContents] at h
    split_ifs at h
    split at h
    · cases h
    split_ifs at h
    · cases h
      exact zero_notMem_takeWhile _
    · exact ih h

theorem sdBusMessagePeekType_zero {m : Inbound} {s : Str}
    (h : sdBusMessagePeekType m = .ok (some (sdBusTypeVariant, some s))) : (0 : UInt8) ∉ s := by
  unfold sdBusMessagePeekType at h
  dsimp only at h
  split at h
  · cases h
  split at h
  · exact nomatch congrArg Prod.snd (Option.some.inj (Except.ok.inj h))
  split at h
  · split at h <;> cases h
  split at h
  · split at h
    · cases h
    · rename_i l _
      have htype := congrArg Prod.fst (Option.some.inj (Except.ok.inj h))
      dsimp only at htype
      split_ifs at htype <;> cases htype
  split at h
  · split at h
    · cases h
    split at h
    · cases h
    rename_i hcontents
    split at h
    · cases h
    cases h
    exact variantContents_zero _ hcontents
  · cases h

theorem resolveContainer_zero {m : Inbound} {type tt : UInt8} {contents : Option CStr} {s : Str}
    (h : resolveContainer m type (contents.map (·.1)) = .ok (tt, some s))
    (hv : tt = sdBusTypeVariant) : (0 : UInt8) ∉ s := by
  subst hv
  cases contents with
  | some c =>
    rw [Option.map_some, resolveContainer] at h
    split_ifs at h
    cases h
    exact c.2
  | none =>
    rw [Option.map_none, resolveContainer] at h
    split at h
    · cases h
    · split_ifs at h
      cases h
    · rename_i hpeek
      split_ifs at h
      cases h
      exact sdBusMessagePeekType_zero hpeek

/-! ## Containers around the cursor -/

def Inbound.outer (m : Inbound) : List Container := (m.containers ++ [m.root]).tail

def Waiting (c : Container) : Prop :=
  ∃ t rest, GoesOn { c with index := c.savedIndex } t rest ∧
    ({ c with index := c.savedIndex }.advance t.sig.length).index = c.index

structure Bounded (m : Inbound) (c : Container) : Prop where
  stop : c.stop ≤ m.userBodySize
  root : c.enclosing = 0 → c.stop = m.userBodySize

structure Good (m : Inbound) : Prop where
  placed : Placed m.last m.rindex
  waiting : ∀ c ∈ m.outer, Waiting c
  bounded : ∀ c ∈ m.last :: m.outer, Bounded m c
  body : m.userBodySize ≤ m.body.length

theorem last_setLast (m : Inbound) (c : Container) : (m.setLast c).last = c := by
  unfold Inbound.setLast Inbound.last
  cases m.containers <;> rfl

theorem outer_setLast (m : Inbound) (c : Container) : (m.setLast c).outer = m.outer := by
  unfold Inbound.setLast Inbound.outer
  cases m.containers <;> rfl

theorem body_setLast (m : Inbound) (c : Container) : (m.setLast c).body = m.body := by
  unfold Inbound.setLast
  cases m.containers <;> rfl

theorem userBodySize_setLast (m : Inbound) (c : Container) :
    (m.setLast c).userBodySize = m.userBodySize := by
  unfold Inbound.setLast
  cases m.containers <;> rfl

theorem outer_cons (m : Inbound) (c : Container) (r : Nat) :
    ({ m with containers := c :: m.containers, rindex := r } : Inbound).outer = m.last :: m.outer := by
  unfold Inbound.last Inbound.outer
  cases m.containers <;> rfl

theorem good_setLast {m : Inbound} {c : Container} {r : Nat}
    (hwaiting : ∀ d ∈ m.outer, Waiting d) (hbounded : ∀ d ∈ m.last :: m.outer, Bounded m d)
    (hbody : m.userBodySize ≤ m.body.length) (hp : Placed c r) (hstop : c.stop = m.last.stop)
    (he : c.enclosing = m.last.enclosing) : Good { m.setLast c with rindex := r } := by
  have hlast := last_setLast m c
  have houter := outer_setLast m c
  have huser := userBodySize_setLast m c
  refine ⟨?_, ?_, ?_, ?_⟩
  · exact hlast.symm ▸ hp
  · exact fun d hd => hwaiting d (houter ▸ hd)
  · intro d hd
    have hd' : d ∈ (m.setLast c).last :: (m.setLast c).outer := hd
    rw [hlast, houter] at hd'
    rcases List.mem_cons.mp hd' with rfl | hd'
    · have hb := hbounded m.last List.mem_cons_self
      exact ⟨by rw [hstop]; exact hb.stop.trans huser.ge, fun h0 => by
        rw [hstop]
        exact (hb.root (he ▸ h0)).trans huser.symm⟩
    · have hb := hbounded d (List.mem_cons_of_mem _ hd')
      exact ⟨hb.stop.trans huser.ge, fun h0 => (hb.root h0).trans huser.symm⟩
  · exact huser.le.trans (hbody.trans (congrArg List.length (body_setLast m c)).ge)

theorem Good.current {m : Inbound} (h : Good m) (hs : ¬messageEndOfSignature m = true)
    (ha : ¬messageEndOfArray m m.rindex = true) : ∃ t rest, Current m.last m.rindex t rest := by
  rcases h.placed with hrest | ⟨he, hstop⟩ | hcur
  · rw [messageEndOfSignature, Container.cur, hrest] at hs
    exact absurd (decide_eq_true rfl) hs
  · rw [messageEndOfArray, Bool.and_eq_true, decide_eq_true_eq, decide_eq_true_eq] at ha
    exact absurd ⟨he, hstop⟩ ha
  · exact hcur

theorem Good.item_le {m : Inbound} {t : Ty} {rest : List Ty} (h : Good m)
    (hc : Current m.last m.rindex t rest)
    (hu : (size t).isSome = true → m.rindex + m.last.itemSize ≤ m.userBodySize) :
    m.rindex + m.last.itemSize ≤ m.last.stop := by
  rcases hc.ends with hle | ⟨he, hsome⟩
  · exact hle
  · rw [(h.bounded m.last List.mem_cons_self).root he]
    exact hu hsome

/-- The bytes from `start` on are in the container of the cursor, and that one in the body. -/
structure Inbound.Holds (m : Inbound) (start stop : Nat) : Prop where
  begin_le : m.last.begin ≤ start
  le_stop : stop ≤ m.last.stop
  stop_le : m.last.stop ≤ m.body.length

theorem Good.holds {m : Inbound} {start stop : Nat} (h : Good m) (hb : m.last.begin ≤ start)
    (hs : stop ≤ m.last.stop) : m.Holds start stop :=
  ⟨hb, hs, (h.bounded m.last List.mem_cons_self).stop.trans h.body⟩

def Inbound.valueStart (m : Inbound) (b : Basic) : Nat :=
  alignUp m.rindex ((busGvariantGetAlignment [b.code]).getD 1)

theorem valueStart_basic (m : Inbound) (b : Basic) :
    m.valueStart b = alignUp m.rindex (basicAlign b) := by
  have hfit : (Ty.basic b).Fits true 0 0 := by
    rw [Ty.Fits]
    trivial
  have halign := getAlignment_sig hfit
  rw [Ty.sig, align] at halign
  rw [Inbound.valueStart, halign, Option.getD_some]

theorem readBasicValue_peek {m : Inbound} {itemSize ri : Nat} {b : Basic} {v : BasicVal}
    (h : readBasicValue m itemSize b = .ok (v, ri)) :
    m.valueStart b + itemSize ≤ m.userBodySize := by
  have htext : ∀ {validate : Str → Bool} {value : Str → BasicVal},
      basicAlign b = 1 → readText m itemSize validate value = .ok (v, ri) →
      m.valueStart b + itemSize ≤ m.userBodySize := fun {validate value} ha h => by
    unfold readText at h
    split_ifs at h
    split at h
    · cases h
    rename_i q ri' hpeek
    obtain ⟨-, hri, hle, -⟩ := messagePeekBody_ok hpeek
    rw [valueStart_basic, ha]
    exact hri ▸ hle
  have hword : ∀ {value : Bytes → Except Errno BasicVal},
      readWord m itemSize b value = .ok (v, ri) →
      m.valueStart b + itemSize ≤ m.userBodySize := fun {value} h => by
    unfold readWord at h
    split_ifs at h
    split at h
    · cases h
    rename_i q ri' hpeek
    obtain ⟨-, hri, hle, -⟩ := messagePeekBody_ok hpeek
    exact hri ▸ hle
  cases b with
  | string => exact htext (by decide) h
  | objectPath => exact htext (by decide) h
  | signature => exact htext (by decide) h
  | num t => exact hword h
  | boolean => exact hword h
  | unixFd => exact hword h


def Call.Inside (m : Inbound) : Call → Prop
  | .read type => ∀ b v m', Basic.ofCode type = some b →
    sdBusMessageReadBasic m type = .ok (some v, m') →
    m.Holds (m.valueStart b) (m.valueStart b + m.last.itemSize)
  | .enter type contents => ∀ m',
    sdBusMessageEnterContainer m type (contents.map (·.1)) = .ok (true, m') →
    m.Holds m'.last.begin m'.last.stop
  | .exit => True

theorem Good.read {m m' : Inbound} {type : UInt8} {v : Option BasicVal} (h : Good m)
    (hr : sdBusMessageReadBasic m type = .ok (v, m')) :
    Good m' ∧ (v.isSome = true → ∀ b, Basic.ofCode type = some b →
      m.Holds (m.valueStart b) (m.valueStart b + m.last.itemSize)) := by
  unfold sdBusMessageReadBasic at hr
  split at hr
  · cases hr
  rename_i b hb
  by_cases hsig : messageEndOfSignature m = true
  · rw [if_pos hsig] at hr
    cases hr
  rw [if_neg hsig] at hr
  by_cases harray : messageEndOfArray m m.rindex = true
  · rw [if_pos harray] at hr
    cases hr
    exact ⟨h, fun hf => absurd hf Bool.false_ne_true⟩
  rw [if_neg harray] at hr
  by_cases hcur : m.last.cur ≠ type
  · rw [if_pos hcur] at hr
    cases hr
  rw [if_neg hcur] at hr
  split at hr
  · cases hr
  rename_i w ri hvalue
  split at hr
  · cases hr
  rename_i c r hnext
  cases hr
  obtain ⟨t, rest, hc⟩ := h.current hsig harray
  have hcode := Basic.code_of_ofCode hb
  rw [not_not, hc.cur, ← hcode] at hcur
  obtain rfl := Ty.eq_basic_of_head hcur
  have hdvd : basicAlign b ∣ m.rindex := by
    have := hc.aligned
    rwa [align] at this
  have hstart : m.valueStart b = m.rindex :=
    (valueStart_basic m b).trans (alignUp_of_dvd (isAlign_leaf b.code).pos hdvd)
  have hpeek := readBasicValue_peek hvalue
  rw [hstart] at hpeek
  refine ⟨?_, fun _ b' hb' => ?_⟩
  · have hkept := containerNextItem_kept hnext
    refine good_setLast h.waiting h.bounded h.body (hc.next hnext) ?_ ?_
    · rw [hkept, Container.advance]
      split_ifs <;> rfl
    · rw [hkept, Container.advance]
      split_ifs <;> rfl
  · obtain rfl := Option.some.inj (hb.symm.trans hb')
    rw [hstart]
    exact h.holds hc.begins (h.item_le hc fun _ => hpeek)

theorem Behind.save {c : Container} {t : Ty} {rest : List Ty} (h : Behind c t rest)
    (saved : Nat) : Behind { c with savedIndex := saved } t rest := by
  cases h with
  | variant hc => exact .variant hc
  | fixed hc hs hk hb => exact .fixed hc hs hk hb
  | element hc hs hk ho hi hb he => exact .element hc hs hk ho hi hb he
  | member hc hv ho hi hb he => exact .member hc hv ho hi hb he

theorem waiting_advance {c : Container} {t : Ty} {rest : List Ty} (h : GoesOn c t rest) :
    Waiting ({ c with savedIndex := c.index }.advance t.sig.length) := by
  refine ⟨t, rest, ?_, ?_⟩
  · rw [Container.advance]
    split_ifs
    · exact ⟨h.types, h.behind.save _⟩
    · exact ⟨h.types, h.behind.save _⟩
  · rw [Container.advance, Container.advance]
    by_cases he : c.enclosing = sdBusTypeArray
    · rw [if_pos he, if_pos he]
    · rw [if_neg he, if_neg he]

theorem Good.entered {m : Inbound} {t : Ty} {rest : List Ty} {type : UInt8} {contents : Str}
    {x : Entered} (h : Good m) (hc : Current m.last m.rindex t rest)
    (hat : EntersAt m t type contents x) :
    Good (m.enter type contents x) ∧
      m.Holds (m.newContainer type contents x).begin (m.newContainer type contents x).stop := by
  have hle : m.rindex + m.last.itemSize ≤ m.last.stop := by
    rcases hat.fits with hle | hle
    · exact hle
    · exact h.item_le hc fun _ => hle
  have hb := h.bounded m.last List.mem_cons_self
  let c := { m.last with savedIndex := m.last.index }.advance (signatureSkip type contents)
  have houter : (m.enter type contents x).outer = c :: m.outer := by
    rw [← outer_setLast m c]
    refine (outer_cons (m.setLast c) _ x.rindex).trans (congrArg (· :: _) (last_setLast m c))
  have hadvance : c.stop = m.last.stop ∧ c.enclosing = m.last.enclosing := by
    dsimp only [c]
    rw [Container.advance]
    split_ifs
    · exact ⟨rfl, rfl⟩
    · exact ⟨rfl, rfl⟩
  have huser : (m.enter type contents x).userBodySize = m.userBodySize := userBodySize_setLast m c
  have hbody : (m.enter type contents x).body = m.body := body_setLast m c
  have hstop := hat.stop
  refine ⟨⟨?_, ?_, ?_, ?_⟩, h.holds ?_ ?_⟩
  · have := hat.placed
    rw [← hat.rindex] at this
    exact this
  · intro d hd
    rw [houter] at hd
    rcases List.mem_cons.mp hd with rfl | hd
    · dsimp only [c]
      rw [hat.skip]
      exact waiting_advance hc.toGoesOn
    · exact h.waiting d hd
  · intro d hd
    rw [houter] at hd
    rcases List.mem_cons.mp hd with rfl | hd
    · exact ⟨huser ▸ hstop.le.trans (hle.trans hb.stop), fun h0 => absurd h0 hat.notRoot⟩
    · rcases List.mem_cons.mp hd with rfl | hd
      · exact ⟨huser ▸ hadvance.1.le.trans hb.stop, fun h0 => huser ▸
          hadvance.1.trans (hb.root (hadvance.2 ▸ h0))⟩
      · have hd := h.bounded d (List.mem_cons_of_mem _ hd)
        exact ⟨huser ▸ hd.stop, fun h0 => huser ▸ hd.root h0⟩
  · rw [huser, hbody]
    exact h.body
  · exact hc.begins.trans hat.rindex.ge
  · exact hstop.le.trans hle

theorem Good.enter {m m' : Inbound} {type : UInt8} {contents : Option CStr} {b : Bool}
    (h : Good m)
    (he : sdBusMessageEnterContainer m type (contents.map (·.1)) = .ok (b, m'))
    (hroom : Call.hasRoom m (.enter type contents) = true) :
    Good m' ∧ (b = true → m.Holds m'.last.begin m'.last.stop) := by
  unfold sdBusMessageEnterContainer at he
  rw [Call.hasRoom] at hroom
  split at he
  · cases he
  rename_i tt cc hresolve
  by_cases hdepth : busContainerDepth ≤ m.containers.length
  · rw [if_pos hdepth] at he
    cases he
  rw [if_neg hdepth] at he
  by_cases hsig : messageEndOfSignature m = true
  · rw [if_pos hsig] at he
    cases he
  rw [if_neg hsig] at he
  by_cases harray : messageEndOfArray m m.rindex = true
  · rw [if_pos harray] at he
    cases he
    exact ⟨h, fun hf => absurd hf Bool.false_ne_true⟩
  rw [if_neg harray] at he
  split at he
  · cases he
  rename_i s
  split at he
  · cases he
  rename_i x hx
  cases he
  rw [hresolve] at hroom
  obtain ⟨t, rest, hc⟩ := h.current hsig harray
  obtain ⟨hgood, hholds⟩ := h.entered hc
    (enterByType_at hc (resolveContainer_zero hresolve) hx hroom)
  exact ⟨hgood, fun _ => hholds⟩


theorem Good.exit {m m' : Inbound} (h : Good m) (he : sdBusMessageExitContainer m = .ok m') :
    Good m' := by
  unfold sdBusMessageExitContainer at he
  split at he
  · cases he
  rename_i c cs hcs
  split_ifs at he
  unfold Inbound.resume at he
  split at he
  · cases he
  rename_i d r hnext
  cases he
  let n : Inbound := { m with containers := cs }
  have houter : m.outer = n.last :: n.outer := by
    have := outer_cons n c m.rindex
    rw [← this]
    exact congrArg (fun l => (l ++ [m.root]).tail) hcs
  obtain ⟨t, rest, hgoes, hindex⟩ := h.waiting n.last (houter ▸ List.mem_cons_self)
  have hplaced := hgoes.next hnext
  have hkept := containerNextItem_kept hnext
  have hd : { d with index := n.last.index } = d.advance t.sig.length := by
    rw [← hindex, hkept, Container.advance, Container.advance]
    by_cases ha : n.last.enclosing = sdBusTypeArray
    · rw [if_pos ha, if_pos ha]
    · rw [if_neg ha, if_neg ha]
  refine good_setLast (m := n) ?_ ?_ h.body (hd ▸ hplaced) ?_ ?_
  · exact fun e he => h.waiting e (houter ▸ List.mem_cons_of_mem _ he)
  · intro e he
    have hb := h.bounded e (List.mem_cons_of_mem _ (houter ▸ he))
    exact ⟨hb.stop, hb.root⟩
  · rw [hkept]
  · rw [hkept]


theorem Good.exec {m m' : Inbound} {x : Call} {b : Bool} (h : Good m)
    (hx : x.exec m = .ok (b, m')) (hroom : x.hasRoom m = true) : Good m' ∧ x.Inside m := by
  cases x with
  | enter type contents =>
    exact ⟨(h.enter hx hroom).1, fun n hn => (h.enter hn hroom).2 rfl⟩
  | read type =>
    obtain ⟨p, hp, heq⟩ := exists_of_map hx
    cases heq
    exact ⟨(h.read hp).1, fun c v n hc hn => (h.read hn).2 rfl c hc⟩
  | exit =>
    obtain ⟨n, hn, heq⟩ := exists_of_map hx
    cases heq
    exact ⟨h.exit hn, trivial⟩

def Ready (m : Inbound) : Prop := Good m ∨ (m.containers = [] ∧ m.root.rest = [])

theorem Ready.readErrorMessage {m : Inbound} (h : Ready m) : Ready m.readErrorMessage := by
  rcases h with h | ⟨hc, hrest⟩
  · left
    unfold Inbound.readErrorMessage
    split
    · rename_i s m' hr
      obtain ⟨hp, hw, hb, hlen⟩ := (h.read hr).1
      exact ⟨hp, hw, fun c hc => ⟨(hb c hc).stop, (hb c hc).root⟩, hlen⟩
    · exact h
  · have hend : messageEndOfSignature m = true := by
      rw [messageEndOfSignature, Inbound.last, hc, List.headD_nil, Container.cur, hrest]
      rfl
    have hread : sdBusMessageReadBasic m sdBusTypeString = .error .enxio := by
      rw [sdBusMessageReadBasic, show Basic.ofCode sdBusTypeString = some .string from rfl]
      exact if_pos hend
    rw [Inbound.readErrorMessage, hread]
    exact .inr ⟨hc, hrest⟩

theorem placed_root {ts : List Ty} {stop : Nat} {offsets : List Nat} (hs : Scannable ts)
    (hne : ts ≠ []) (h : Ends true stop ts 0 offsets) :
    Placed { signature := some (Ty.sigs ts), stop := stop, offsets := offsets
             itemSize := offsets.headD 0 } 0 := by
  cases ts with
  | nil => exact absurd rfl hne
  | cons t ts =>
    cases offsets with
    | nil => exact h.elim
    | cons o os =>
      obtain ⟨-, hle, htail⟩ := h
      have harray : (0 : UInt8) ≠ sdBusTypeArray := by decide
      have hvariant : (0 : UInt8) ≠ sdBusTypeVariant := by decide
      refine .inr (.inr ⟨t, ts, ⟨⟨[], rfl, hs, rfl⟩, .member (p := []) harray hvariant rfl rfl
        (Nat.zero_le _) htail⟩, dvd_zero _, le_rfl, ?_⟩)
      rcases hle with hle | ⟨-, hsome⟩
      · left
        rw [Nat.zero_add]
        exact hle
      · exact .inr ⟨rfl, hsome⟩

theorem good_root {m : Inbound} {ts : List Ty} {x : Entered} (hs : Scannable ts) (hne : ts ≠ [])
    (hx : buildStructOffsets m (Ty.sigs ts) m.userBodySize = .ok x) (hc : m.containers = [])
    (hr : m.rindex = 0)
    (hroot : m.root = { signature := some (Ty.sigs ts), stop := m.userBodySize }) :
    Good { m with
      rindex := x.rindex
      root := { m.root with offsets := x.offsets, itemSize := x.itemSize } } := by
  obtain ⟨hri, hitem, -, hbody, hends, -⟩ := buildStructOffsets_ends hs hne hx
  rw [hr] at hri hitem
  rw [hr, Nat.zero_add] at hbody hends
  have hplaced := placed_root hs hne hends
  rw [hroot, hitem, hri, Nat.sub_zero]
  refine ⟨?_, ?_, ?_, hbody⟩
  · rw [Inbound.last, hc]
    exact hplaced
  · rw [Inbound.outer, hc]
    exact fun d hd => absurd hd List.not_mem_nil
  · rw [Inbound.outer, Inbound.last, hc]
    intro d hd
    obtain rfl := List.mem_singleton.mp hd
    exact ⟨le_rfl, fun _ => rfl⟩

theorem ready_root {m : Inbound} {s : Str} {x : Entered} (h0 : (0 : UInt8) ∉ s)
    (hx : buildStructOffsets m s m.userBodySize = .ok x) (hc : m.containers = [])
    (hr : m.rindex = 0) (hroot : m.root = { signature := some s, stop := m.userBodySize }) :
    Ready { m with
      rindex := x.rindex
      root := { m.root with offsets := x.offsets, itemSize := x.itemSize } } := by
  by_cases hs : s = []
  · refine .inr ⟨hc, ?_⟩
    dsimp only
    rw [hroot, hs]
    rfl
  · obtain ⟨ts, rfl, hscan⟩ : ∃ ts, s = Ty.sigs ts ∧ Scannable ts := by
      rw [buildStructOffsets, if_neg hs] at hx
      dsimp only at hx
      split at hx
      · cases hx
      · rename_i hcount
        exact scannable_of_countVariable _ h0 hcount
    have hne : ts ≠ [] := by
      rintro rfl
      exact hs rfl
    exact .inl (good_root hscan hne hx hc hr hroot)

theorem parseGvariant_ready {e : Endian} {header : Header} {buffer : Bytes} {z : Sizes}
    {fds : List Nat} {m : Inbound} (h : parseGvariant e header buffer z fds = .ok m) :
    Ready m := by
  unfold parseGvariant at h
  split at h
  · cases h
  rename_i p s hs
  dsimp only at h
  split at h
  · cases h
  rename_i P hP
  by_cases hc : checkParsed P fds = false
  · rw [if_pos hc] at h
    cases h
  rw [if_neg hc] at h
  split at h
  · cases h
  rename_i x hx
  obtain ⟨-, -, -, -, h0⟩ := footerSignature_ok hs
  have hready := ready_root h0 hx rfl rfl rfl
  rw [← Except.ok.inj h]
  split_ifs
  · exact hready.readErrorMessage
  · exact hready


theorem fromMalloc_ready {buffer : Bytes} {fds : List Nat} {m : Inbound}
    (h : busMessageFromMalloc buffer fds = .ok m) (hv : m.version = 2) : Ready m := by
  unfold busMessageFromMalloc at h
  split at h
  · cases h
  · cases h
  dsimp only at h
  split at h
  · exact parseGvariant_ready h
  · obtain ⟨r, -, rfl⟩ := exists_of_map h
    exact absurd hv (show (1 : UInt8) ≠ 2 by decide)

theorem sdBusMessageSkip_kept {P : Reader → Prop}
    (hP : ∀ {R x b R'}, P R → R.call x = .ok (b, R') → P R') (fuel : Nat) :
    (∀ {R types b R'}, P R → sdBusMessageSkip fuel R types = .ok (b, R') → P R') ∧
    (∀ {R s R'}, P R → skipElements fuel R s = .ok R' → P R') ∧
    (∀ {R types b R'}, P R → skipBehind fuel R types = .ok (b, R') → P R') := by
  induction fuel with
  | zero => exact ⟨fun _ h => (nomatch h), fun _ h => (nomatch h), fun _ h => (nomatch h)⟩
  | succ fuel ih =>
    obtain ⟨hskip, helements, hbehind⟩ := ih
    refine ⟨fun {R types b R'} hR h => ?_, fun {R s R'} hR h => ?_, fun {R types b R'} hR h => ?_⟩
    · rw [sdBusMessageSkip] at h
      dsimp only at h
      split at h
      · cases h
        exact hR
      split at h
      · split at h
        · cases h
        · rename_i hcall
          cases h
          exact hP hR hcall
        · rename_i hcall
          obtain ⟨p, hp, heq⟩ := exists_of_map h
          cases heq
          exact hskip (hP hR hcall) hp
      split at h
      · split at h
        · cases h
        split at h
        · cases h
        · rename_i hcall
          cases h
          exact hP hR hcall
        · rename_i hcall
          split at h
          · cases h
          · rename_i hs
            exact hbehind (helements (hP hR hcall) hs) h
      split at h
      · split at h
        · cases h
        · cases h
          exact hR
        · split at h
          · cases h
          split at h
          · cases h
          · rename_i hcall
            cases h
            exact hP hR hcall
          · rename_i hcall
            split at h
            · cases h
            · rename_i hs
              exact hbehind (hskip (hP hR hcall) hs) h
      split at h
      · split at h
        · cases h
        split at h
        · cases h
        · rename_i hcall
          cases h
          exact hP hR hcall
        · rename_i hcall
          split at h
          · cases h
          · rename_i hs
            exact hbehind (hskip (hP hR hcall) hs) h
      · cases h
    · rw [skipElements] at h
      split at h
      · cases h
      · rename_i hs
        cases h
        exact hskip hR hs
      · rename_i hs
        exact helements (hskip hR hs) h
    · rw [skipBehind] at h
      split at h
      · cases h
      · rename_i hexit
        obtain ⟨p, hp, heq⟩ := exists_of_map h
        cases heq
        exact hskip (hP hR hexit) hp


theorem readerRun_kept {P : Reader → Prop}
    (hP : ∀ {R x b R'}, P R → R.call x = .ok (b, R') → P R') :
    ∀ {xs : List UserCall} {R R' : Reader}, P R → readerRun R xs = .ok R' → P R'
  | [], R, R', hR, h => by
    cases h
    exact hR
  | x :: xs, R, R', hR, h => by
    rw [readerRun] at h
    split at h
    · cases h
    rename_i S hS
    refine readerRun_kept hP ?_ h
    cases x with
    | call x =>
      obtain ⟨p, hp, rfl⟩ := exists_of_map hS
      exact hP hR hp
    | skip fuel types =>
      cases types with
      | some types =>
        obtain ⟨p, hp, rfl⟩ := exists_of_map hS
        exact (sdBusMessageSkip_kept hP fuel).1 hR hp
      | none =>
        obtain ⟨p, hp, rfl⟩ := exists_of_map hS
        rw [sdBusMessageSkipOne] at hp
        split_ifs at hp
        · cases hp
          exact hR
        split at hp
        · cases hp
        · exact (sdBusMessageSkip_kept hP fuel).1 hR hp

theorem exec_of_end {m m' : Inbound} {x : Call} {b : Bool} (hc : m.containers = [])
    (hrest : m.root.rest = []) : x.exec m ≠ .ok (b, m') := by
  have hend : messageEndOfSignature m = true := by
    rw [messageEndOfSignature, Inbound.last, hc, List.headD_nil, Container.cur, hrest]
    rfl
  intro h
  cases x with
  | enter type contents =>
    rw [Call.exec, sdBusMessageEnterContainer] at h
    split at h
    · cases h
    rw [if_pos hend] at h
    split_ifs at h
  | read type =>
    rw [Call.exec, sdBusMessageReadBasic] at h
    split at h
    · cases h
    rw [if_pos hend] at h
    cases h
  | exit =>
    rw [Call.exec, sdBusMessageExitContainer, hc] at h
    cases h

/-- In a run over an accepted message of version 2 that enters only containers with room for their
items, all that is read or entered is in its container, and that one in the body. -/
theorem readerRun_inside {buffer : Bytes} {fds : List Nat} {m : Inbound} {xs : List UserCall}
    {R : Reader} (h : busMessageFromMalloc buffer fds = .ok m) (hv : m.version = 2)
    (hrun : readerRun { message := m } xs = .ok R)
    (hroom : ∀ p ∈ R.made, p.2.hasRoom p.1 = true) : ∀ p ∈ R.made, p.2.Inside p.1 := by
  rcases fromMalloc_ready h hv with hgood | ⟨hc, hrest⟩
  · have hkept := readerRun_kept
      (P := fun R => (∀ p ∈ R.made, p.2.hasRoom p.1 = true) →
        Good R.message ∧ ∀ p ∈ R.made, p.2.Inside p.1)
      (fun {R x b R'} hR hx hroom => ?_)
      (fun _ => ⟨hgood, fun p hp => absurd hp List.not_mem_nil⟩) hrun
    · exact (hkept hroom).2
    · obtain ⟨⟨b', m'⟩, hexec, heq⟩ := exists_of_map hx
      cases heq
      obtain ⟨hgood, hinside⟩ := hR fun p hp => hroom p (List.mem_append_left _ hp)
      obtain ⟨hgood', hx'⟩ := hgood.exec hexec
        (hroom (R.message, x) (List.mem_append_right _ List.mem_cons_self))
      refine ⟨hgood', fun p hp => ?_⟩
      rcases List.mem_append.mp hp with hp | hp
      · exact hinside p hp
      · obtain rfl := List.mem_singleton.mp hp
        exact hx'
  · have hkept := readerRun_kept (P := fun R => R.message = m ∧ R.made = [])
      (fun {R x b R'} hR hx => ?_) ⟨rfl, rfl⟩ hrun
    · rw [hkept.2]
      exact fun p hp => absurd hp List.not_mem_nil
    · obtain ⟨⟨b', m'⟩, hexec, -⟩ := exists_of_map hx
      rw [hR.1] at hexec
      exact absurd hexec (exec_of_end hc hrest)


def arrayMessage (body : Bytes) : Bytes := shortMessage.take 48 ++ body ++ [46]

def roomyMessage : Bytes := arrayMessage [7, 0, 0, 0, 0, 40, 97, 117, 41]

theorem exists_run {buffer : Bytes} {xs : List UserCall} {α : Type}
    {f : Inbound → Reader → α} {a : α}
    (h : ((busMessageFromMalloc buffer []).toOption.bind fun m =>
      (readerRun { message := m } xs).toOption.map (f m)) = some a) :
    ∃ m R, busMessageFromMalloc buffer [] = .ok m ∧ readerRun { message := m } xs = .ok R ∧
      f m R = a := by
  obtain ⟨m, hm, h⟩ := Option.bind_eq_some_iff.mp h
  obtain ⟨R, hR, h⟩ := Option.map_eq_some_iff.mp h
  refine ⟨m, R, ?_, ?_, h⟩
  · cases hr : busMessageFromMalloc buffer [] with
    | error r =>
      rw [hr] at hm
      cases hm
    | ok n =>
      rw [hr] at hm
      cases hm
      rfl
  · cases hr : readerRun { message := m } xs with
    | error r =>
      rw [hr] at hR
      cases hR
    | ok n =>
      rw [hr] at hR
      cases hR
      rfl

theorem readerRun_inside_roomy : ∃ m R, busMessageFromMalloc roomyMessage [] = .ok m ∧
    readerRun { message := m } [.skip 9 none] = .ok R ∧ R.made.length = 4 ∧
    ∀ p ∈ R.made, p.2.Inside p.1 := by
  have h : ((busMessageFromMalloc roomyMessage []).toOption.bind fun m =>
      (readerRun { message := m } [.skip 9 none]).toOption.map fun R =>
        (m.version, R.made.length, R.made.all fun p => p.2.hasRoom p.1)) = some (2, 4, true) := by
    decide +kernel
  obtain ⟨m, R, hm, hR, h⟩ := exists_run (f := fun m R =>
    (m.version, R.made.length, R.made.all fun p => p.2.hasRoom p.1)) h
  have hall := congrArg (fun p => p.2.2) h
  exact ⟨m, R, hm, hR, congrArg (fun p => p.2.1) h,
    readerRun_inside hm (congrArg Prod.fst h) hR (List.all_eq_true.mp hall)⟩


def shortArrayMessage : Bytes :=
  arrayMessage [1, 0, 0, 0, 7, 0, 0, 0, 2, 0, 40, 97, 117, 117, 41]

def Call.readsBehind (m : Inbound) : Call → Bool
  | .read type =>
    type = sdBusTypeUint32 && (sdBusMessageReadBasic m type).toOption.any (·.1.isSome) &&
      m.last.stop < m.valueStart (.num .uint32) + m.last.itemSize
  | _ => false

theorem not_inside_of_readsBehind {m : Inbound} {x : Call} (h : x.readsBehind m = true) :
    ¬x.Inside m := by
  cases x with
  | read type =>
    rw [Call.readsBehind, Bool.and_eq_true, Bool.and_eq_true, decide_eq_true_eq,
      decide_eq_true_eq] at h
    obtain ⟨⟨rfl, hread⟩, hlt⟩ := h
    intro hinside
    cases hr : sdBusMessageReadBasic m sdBusTypeUint32 with
    | error r =>
      rw [hr] at hread
      cases hread
    | ok r =>
      obtain ⟨_ | v, m'⟩ := r
      · rw [hr] at hread
        cases hread
      · exact absurd (hinside (.num .uint32) v m' rfl hr).le_stop (Nat.not_le_of_lt hlt)
  | _ => exact absurd h Bool.false_ne_true

/-- An element of 4 bytes is read from an array of 2. -/
theorem not_readerRun_inside : ∃ m R, busMessageFromMalloc shortArrayMessage [] = .ok m ∧
    m.version = 2 ∧
    readerRun { message := m } [.call (.enter sdBusTypeArray (some ⟨[sdBusTypeUint32], by decide⟩)),
      .call (.read sdBusTypeUint32)] = .ok R ∧ ∃ p ∈ R.made, ¬p.2.Inside p.1 := by
  have h : ((busMessageFromMalloc shortArrayMessage []).toOption.bind fun m =>
      (readerRun { message := m } [.call (.enter sdBusTypeArray
        (some ⟨[sdBusTypeUint32], by decide⟩)), .call (.read sdBusTypeUint32)]).toOption.map
        fun R => (m.version, R.made.any fun p => p.2.readsBehind p.1)) = some (2, true) := by
    decide +kernel
  obtain ⟨m, R, hm, hR, h⟩ := exists_run h
  obtain ⟨p, hp, hbehind⟩ := List.any_eq_true.mp (congrArg Prod.snd h)
  exact ⟨m, R, hm, congrArg Prod.fst h, hR, p, hp, not_inside_of_readsBehind hbehind⟩

end Basu.GVariant
