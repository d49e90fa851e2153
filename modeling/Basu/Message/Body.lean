import Basu.Message.Writer

/-! The body of a message under construction. Whatever way the parts are split, the joined bytes are
the open tree's, and every saved pointer still points at the length word of its array. -/

namespace Basu
open Lib

def flat (parts : List Part) : Bytes := (parts.map (·.data)).flatten

@[simp] theorem flat_nil : flat [] = [] := rfl

@[simp] theorem flat_cons (q : Part) (ps : List Part) : flat (q :: ps) = q.data ++ flat ps := by
  simp [flat]

@[simp] theorem flat_append (ps qs : List Part) : flat (ps ++ qs) = flat ps ++ flat qs := by
  simp [flat]

theorem Message.body_eq (m : Message) : m.body = flat m.parts := rfl

/-- The pointer `loc` is the address of the four bytes at `pos` of the joined body. -/
def LocAt (parts : List Part) (loc : Nat × Nat) (pos : Nat) : Prop :=
  ∃ ps q qs, parts = ps ++ q :: qs ∧ ps.length = loc.1 ∧ loc.2 + 4 ≤ q.data.length ∧
    (flat ps).length + loc.2 = pos

theorem modify_append_cons {α : Type} (f : α → α) (ps : List α) (q : α) (qs : List α) :
    (ps ++ q :: qs).modify ps.length f = ps ++ f q :: qs := by
  induction ps with
  | nil => rfl
  | cons p ps ih => simpa using ih

theorem LocAt.append {parts : List Part} {loc : Nat × Nat} {pos : Nat}
    (h : LocAt parts loc pos) (ps : List Part) : LocAt (parts ++ ps) loc pos := by
  obtain ⟨as, q, bs, rfl, hlen, hoff, hpos⟩ := h
  exact ⟨as, q, bs ++ ps, by simp, hlen, hoff, hpos⟩

theorem LocAt.replaceLast {ps : List Part} {q q' : Part} {loc : Nat × Nat} {pos : Nat}
    (h : LocAt (ps ++ [q]) loc pos) (hq : q.data.length ≤ q'.data.length) :
    LocAt (ps ++ [q']) loc pos := by
  obtain ⟨as, r, bs, he, hlen, hoff, hpos⟩ := h
  rcases List.eq_nil_or_concat bs with rfl | ⟨bs', b, rfl⟩
  · obtain ⟨rfl, hr⟩ := List.append_inj' he rfl
    have hqr : q = r := by simpa using hr
    subst hqr
    exact ⟨ps, q', [], rfl, hlen, by omega, hpos⟩
  · rw [List.concat_eq_append, ← List.cons_append, ← List.append_assoc] at he
    obtain ⟨rfl, -⟩ := List.append_inj' he rfl
    exact ⟨as, r, bs' ++ [q'], by simp, hlen, hoff, hpos⟩

theorem flat_modify {parts : List Part} {loc : Nat × Nat} {pos : Nat} (h : LocAt parts loc pos)
    (e : Endian) (k : Nat) :
    flat (parts.modify loc.1 fun q => { q with data := addWord e 4 k q.data loc.2 }) =
      addWord e 4 k (flat parts) pos := by
  obtain ⟨ps, q, qs, rfl, hlen, hoff, rfl⟩ := h
  rw [← hlen, modify_append_cons]
  simp only [flat_append, flat_cons]
  rw [addWord_append_right, addWord_append_left e hoff]

theorem LocAt.modify {parts : List Part} {loc loc' : Nat × Nat} {pos pos' : Nat}
    (h : LocAt parts loc pos) (h' : LocAt parts loc' pos') (e : Endian) (k : Nat) :
    LocAt (parts.modify loc'.1 fun q => { q with data := addWord e 4 k q.data loc'.2 })
      loc pos := by
  obtain ⟨ps, q, qs, he, hlen, hoff, hpos⟩ := h
  obtain ⟨ps', q', qs', rfl, hlen', hoff', -⟩ := h'
  rw [← hlen', modify_append_cons]
  -- compare the place of the pointer with the place of the patch
  rcases List.append_eq_append_iff.mp he with ⟨as, rfl, h2⟩ | ⟨as, rfl, h2⟩
  · cases as with
    | nil =>
      simp only [List.nil_append, List.cons.injEq] at h2
      obtain ⟨rfl, rfl⟩ := h2
      exact ⟨ps', { q' with data := addWord e 4 k q'.data loc'.2 }, qs', by simp,
        by simpa using hlen, by simpa [length_addWord e hoff'] using hoff, by simpa using hpos⟩
    | cons a as =>
      simp only [List.cons_append, List.cons.injEq] at h2
      obtain ⟨rfl, rfl⟩ := h2
      refine ⟨ps' ++ { q' with data := addWord e 4 k q'.data loc'.2 } :: as, q, qs, by simp,
        by simpa using hlen, hoff, ?_⟩
      simpa [length_addWord e hoff'] using hpos
  · cases as with
    | nil =>
      simp only [List.nil_append, List.cons.injEq] at h2
      obtain ⟨rfl, rfl⟩ := h2
      exact ⟨ps, { q with data := addWord e 4 k q.data loc'.2 }, qs, by simp, hlen,
        by simpa [length_addWord e hoff'] using hoff, hpos⟩
    | cons a as =>
      simp only [List.cons_append, List.cons.injEq] at h2
      obtain ⟨rfl, rfl⟩ := h2
      exact ⟨ps, q, as ++ { q' with data := addWord e 4 k q'.data loc'.2 } :: qs', by simp,
        hlen, hoff, hpos⟩

theorem flat_growParts (parts : List Part) (align padding : Nat) (fill : Bytes) (fi : Bool) :
    flat (growParts parts align padding fill fi).1 = flat parts ++ (zeros padding ++ fill) := by
  have hnew : flat (growParts.addNew parts padding fill).1 =
      flat parts ++ (zeros padding ++ fill) := by
    simp only [growParts.addNew]
    split_ifs with h
    · simp [partZero]
    · simp [show padding = 0 by omega]
  unfold growParts
  split
  · exact hnew
  · rename_i last hl
    split_ifs
    · exact hnew
    · obtain ⟨ps, rfl⟩ := List.getLast?_eq_some_iff.mp hl
      simp

theorem LocAt.grow {parts : List Part} {loc : Nat × Nat} {pos : Nat} (h : LocAt parts loc pos)
    (align padding : Nat) (fill : Bytes) (fi : Bool) :
    LocAt (growParts parts align padding fill fi).1 loc pos := by
  have hnew : LocAt (growParts.addNew parts padding fill).1 loc pos := by
    simp only [growParts.addNew]
    split_ifs
    · exact (h.append _).append _
    · exact h.append _
  unfold growParts
  split
  · exact hnew
  · rename_i last hl
    split_ifs
    · exact hnew
    · obtain ⟨ps, rfl⟩ := List.getLast?_eq_some_iff.mp hl
      rw [List.dropLast_concat]
      exact h.replaceLast (by simp)

theorem growParts_loc (parts : List Part) (align padding : Nat) {fill : Bytes}
    (hfill : fill.length = 4) (fi : Bool) :
    LocAt (growParts parts align padding fill fi).1 (growParts parts align padding fill fi).2
      ((flat parts).length + padding) := by
  have hnew : LocAt (growParts.addNew parts padding fill).1 (growParts.addNew parts padding fill).2
      ((flat parts).length + padding) := by
    simp only [growParts.addNew]
    split_ifs with h
    · exact ⟨_, _, [], rfl, rfl, by simp [hfill], by simp [partZero]⟩
    · exact ⟨_, _, [], rfl, rfl, by simp [hfill], by simp [show padding = 0 by omega]⟩
  unfold growParts
  split
  · exact hnew
  · rename_i last hl
    split_ifs
    · exact hnew
    · obtain ⟨ps, rfl⟩ := List.getLast?_eq_some_iff.mp hl
      rw [List.dropLast_concat]
      refine ⟨ps, _, [], rfl, by simp, ?_, ?_⟩
      · simp [hfill]; omega
      · simp; omega

def ArrayRep (parts : List Part) (c : Container) (k : Kind) (p : Nat) : Prop :=
  match k with
  | .array _ => ∃ loc, c.arraySize = some loc ∧ LocAt parts loc (alignUp p 4)
  | _ => c.arraySize = none

/-- Every open array has its pointer, and every pointer is at its array's length word. -/
def StackRep (e : Endian) (root : List Val) (parts : List Part) :
    List Container → List Frame → Prop
  | [], [] => True
  | c :: cs, f :: fs =>
    ArrayRep parts c f.kind (stackPos e root fs) ∧ StackRep e root parts cs fs
  | _, _ => False

theorem ArrayRep.mono {parts parts' : List Part} {c : Container} {k : Kind} {p : Nat}
    (h : ArrayRep parts c k p)
    (hloc : ∀ loc pos, LocAt parts loc pos → LocAt parts' loc pos) : ArrayRep parts' c k p := by
  cases k with
  | array t =>
    obtain ⟨loc, hc, hl⟩ := h
    exact ⟨loc, hc, hloc _ _ hl⟩
  | _ => exact h

theorem StackRep.mono {e : Endian} {root : List Val} {parts parts' : List Part}
    {cs : List Container} {fs : List Frame} (h : StackRep e root parts cs fs)
    (hloc : ∀ loc pos, LocAt parts loc pos → LocAt parts' loc pos) :
    StackRep e root parts' cs fs := by
  induction cs generalizing fs with
  | nil => cases fs <;> simp_all [StackRep]
  | cons c cs ih =>
    cases fs with
    | nil => exact h.elim
    | cons f fs => exact ⟨h.1.mono hloc, ih h.2⟩

theorem LocAt.addArraySize {parts : List Part} {c : Container} {k : Kind} {p : Nat}
    (hc : ArrayRep parts c k p) (e : Endian) (n : Nat) {loc : Nat × Nat} {pos : Nat}
    (h : LocAt parts loc pos) : LocAt (addArraySize e n c parts) loc pos := by
  cases k with
  | array t =>
    obtain ⟨loc', hc', hl⟩ := hc
    unfold Basu.addArraySize
    rw [hc']
    exact h.modify hl e n
  | _ =>
    unfold Basu.addArraySize
    rw [show c.arraySize = none from hc]
    exact h

theorem StackRep.foldr_loc {e : Endian} {root : List Val} {parts : List Part}
    {cs : List Container} {fs : List Frame} (h : StackRep e root parts cs fs) (n : Nat)
    {loc : Nat × Nat} {pos : Nat} (hl : LocAt parts loc pos) :
    LocAt (cs.foldr (addArraySize e n) parts) loc pos := by
  induction cs generalizing fs loc pos with
  | nil => exact hl
  | cons c cs ih =>
    cases fs with
    | nil => exact h.elim
    | cons f fs =>
      have hc := h.1.mono (fun _ _ hl => ih h.2 hl)
      exact (ih h.2 hl).addArraySize hc e n

theorem StackRep.flat_foldr {e : Endian} {root : List Val} {parts : List Part}
    {cs : List Container} {fs : List Frame} (h : StackRep e root parts cs fs) {stop n : Nat}
    (hstop : stackPos e root fs ≤ stop) {rest : Bytes}
    (hflat : flat parts = encStack e stop root fs ++ rest) :
    flat (cs.foldr (addArraySize e n) parts) = encStack e (stop + n) root fs ++ rest := by
  induction cs generalizing fs rest with
  | nil =>
    cases fs with
    | nil => exact hflat
    | cons f fs => exact h.elim
  | cons c cs ih =>
    cases fs with
    | nil => exact h.elim
    | cons f fs =>
      rw [stackPos_cons] at hstop
      have hlen := f.kind.length_head e (stackPos e root fs) 0
      simp only [encStack, length_encStack_eq, List.append_assoc] at hflat ⊢
      have hrest := ih h.2 (by omega) hflat
      have hc := h.1.mono (fun _ _ hl => h.2.foldr_loc n hl)
      rw [List.foldr_cons]
      generalize hps : cs.foldr (addArraySize e n) parts = ps at hrest hc
      cases hk : f.kind with
      | array t =>
        rw [hk] at hc hrest hstop
        obtain ⟨loc, hloc, hl⟩ := hc
        unfold addArraySize
        rw [hloc]
        simp only
        rw [flat_modify hl, hrest]
        simp only [Kind.head, arrayHead, List.append_assoc]
        rw [← List.append_assoc, addWord_middle, List.append_assoc]
        · congr 4
          simp only [Kind.start] at hstop ⊢
          omega
        · rw [List.length_append, length_encStack_eq, length_zeros]
          exact add_padTo _ (by decide)
      | _ =>
        rw [hk] at hc hrest
        unfold addArraySize
        rw [show c.arraySize = none from hc]
        exact hrest

/-- The body is the open tree's, followed by bytes that do not belong to a value yet. -/
structure BodyInv (m : Message) (root : List Val) (fs : List Frame) (rest : Bytes) : Prop where
  flat_eq : flat m.parts = encStack m.endian m.bodySize root fs ++ rest
  size : m.bodySize = (flat m.parts).length
  stack : StackRep m.endian root m.parts m.containers fs

theorem BodyInv.stackPos_le {m : Message} {root : List Val} {fs : List Frame} {rest : Bytes}
    (h : BodyInv m root fs rest) : stackPos m.endian root fs + rest.length = m.bodySize := by
  rw [h.size, h.flat_eq, List.length_append, length_encStack_eq]

theorem messageExtendBody_ok {m m' : Message} {align : Nat} {fill : Bytes} {fi : Bool}
    {loc : Nat × Nat} (ha : 0 < align) (h : messageExtendBody m align fill fi = (some loc, m')) :
    alignUp m.bodySize align + fill.length ≤ uint32Max ∧
    m' = { m with parts := m'.parts, bodySize := alignUp m.bodySize align + fill.length } ∧
    ∀ root fs rest, BodyInv m root fs rest →
      BodyInv m' root fs (rest ++ (zeros (padTo m.bodySize align) ++ fill)) ∧
      (∀ loc pos, LocAt m.parts loc pos → LocAt m'.parts loc pos) ∧
      (fill.length = 4 → LocAt m'.parts loc (alignUp m.bodySize align)) := by
  have hpad := add_padTo m.bodySize ha
  have hsub : alignUp m.bodySize align - m.bodySize = padTo m.bodySize align := rfl
  unfold messageExtendBody at h
  simp only [hsub] at h
  split_ifs at h with hp hmax hadd
  · exact absurd h (by simp)
  · exact absurd h (by simp)
  · -- bytes were added: the parts grow, then the enclosing arrays are told
    generalize hg : growParts m.parts align (padTo m.bodySize align) fill fi = g at h
    obtain ⟨parts, loc'⟩ := g
    simp only [Prod.mk.injEq, Option.some.injEq] at h
    obtain ⟨rfl, rfl⟩ := h
    have hne : ¬ padTo m.bodySize align + fill.length = 0 := by omega
    have hflat := flat_growParts m.parts align (padTo m.bodySize align) fill fi
    rw [hg] at hflat
    refine ⟨by omega, by simp only [messageExtendContainers, if_neg hne],
      fun root fs rest inv => ?_⟩
    have hgrow : ∀ loc pos, LocAt m.parts loc pos → LocAt parts loc pos := by
      intro l p hl
      have := hl.grow align (padTo m.bodySize align) fill fi
      rwa [hg] at this
    have hstack := inv.stack.mono hgrow
    have hloc : ∀ loc pos, LocAt parts loc pos →
        LocAt (m.containers.foldr
          (addArraySize m.endian (padTo m.bodySize align + fill.length)) parts) loc pos :=
      fun _ _ hl => hstack.foldr_loc _ hl
    have hnew : flat parts = encStack m.endian m.bodySize root fs ++
        (rest ++ (zeros (padTo m.bodySize align) ++ fill)) := by
      rw [hflat, inv.flat_eq, List.append_assoc]
    have hpatch := hstack.flat_foldr (n := padTo m.bodySize align + fill.length)
      (by have := inv.stackPos_le; omega) hnew
    have hend : m.bodySize + (padTo m.bodySize align + fill.length) =
        alignUp m.bodySize align + fill.length := by omega
    rw [hend] at hpatch
    simp only [messageExtendContainers, if_neg hne]
    refine ⟨⟨hpatch, ?_, hstack.mono hloc⟩, fun l p hl => hloc _ _ (hgrow _ _ hl), ?_⟩
    · have hsz := inv.size
      have hl := congrArg List.length hnew
      simp only [hpatch, List.length_append, length_encStack_eq, length_zeros] at *
      have := congrArg List.length inv.flat_eq
      simp only [List.length_append, length_encStack_eq] at this
      omega
    · intro h4
      have := growParts_loc m.parts align (padTo m.bodySize align) h4 fi
      rw [hg, ← inv.size, hpad] at this
      exact hloc _ _ this
  · -- nothing to add
    simp only [Prod.mk.injEq, Option.some.injEq] at h
    obtain ⟨rfl, rfl⟩ := h
    have hf : fill = [] := List.length_eq_zero_iff.mp (by omega)
    have hz : padTo m.bodySize align = 0 := by omega
    have hs : alignUp m.bodySize align = m.bodySize := by omega
    subst hf
    refine ⟨by omega, rfl, fun root fs rest inv => ⟨?_, fun _ _ hl => hl, fun h4 => ?_⟩⟩
    · simp only [hz, hs, zeros_zero, List.append_nil, List.length_nil, Nat.add_zero]
      exact ⟨inv.flat_eq, inv.size, inv.stack⟩
    · exact absurd h4 (by simp)

end Basu
