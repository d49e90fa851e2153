import Basu.Path.Label
import Mathlib.Data.List.TakeWhile

/-! `sd_bus_path_encode_many` and `sd_bus_path_decode_many`: paths made from a template whose percent
signs stand for strings, and the strings read back from them. -/

namespace Basu
open Lib

def encodeManyLoop : Str → List Str → Str
  | [], _ => []
  | c :: template, labels =>
    if c = charPercent then
      match labels with
      | [] => encodeManyLoop template []
      | label :: labels => label ++ encodeManyLoop template labels
    else c :: encodeManyLoop template labels

def encodeManyLabels : Nat → List (Option Str) → Except Errno (List Str)
  | 0, _ => .ok []
  | n + 1, some arg :: args => (encodeManyLabels n args).map (busLabelEscape arg :: ·)
  | _ + 1, _ => .error .einval

def sdBusPathEncodeMany (pathTemplate : Option Str) (args : List (Option Str)) :
    Except Errno Str :=
  match pathTemplate with
  | none => .error .einval
  | some template =>
    (encodeManyLabels (template.count charPercent) args).map (encodeManyLoop template)

section
variable (alloc : Nat → Bool)

/-- The loop of `sd_bus_path_decode_many`: nothing if the path does not match, else what is left of
the path behind the template, and the labels. `alloc` is whether there is memory for a label. -/
def decodeManyLoop : Nat → Str → Str → List Str → Except Errno (Option (Str × List Str))
  | 0, _, path, labels => .ok (some (path, labels))
  | fuel + 1, template, path, labels =>
    if template = [] then .ok (some (path, labels))
    else
      let literal := template.takeWhile fun c => c ≠ charPercent
      if !literal.isPrefixOf path then .ok none
      else
        let path := path.drop literal.length
        match template.drop literal.length with
        | [] => .ok (some (path, labels))
        | _ :: template =>
          let suffix := template.takeWhile fun c => c ≠ charSlash
          let label := path.takeWhile fun c => c ≠ charSlash
          let length := label.length - suffix.length
          if label.length < suffix.length ∨ label.drop length ≠ suffix then .ok none
          else if !alloc labels.length then .error .enomem
          else decodeManyLoop fuel (template.drop suffix.length) (path.drop label.length)
            (labels ++ [busLabelUnescapeN (label.take length)])

abbrev OutArg := Option (Option Str)

def copyLabels : List Str → List OutArg → List OutArg
  | [], args => args
  | _ :: _, [] => []
  | label :: labels, arg :: args => (arg.map fun _ => some label) :: copyLabels labels args

/-- `sd_bus_path_decode_many`: what it returns, and the arguments behind it. -/
def sdBusPathDecodeMany (path pathTemplate : Option Str) (args : List OutArg) :
    Except Errno Bool × List OutArg :=
  match path, pathTemplate with
  | some path, some template =>
    match decodeManyLoop alloc template.length template path [] with
    | .error r => (.error r, args)
    | .ok none => (.ok false, args)
    | .ok (some (rest, labels)) =>
      if rest ≠ [] then (.ok false, args) else (.ok true, copyLabels labels args)
  | _, _ => (.error .einval, args)

end

/-! ## What a template says -/

def OnePercent (template : Str) : Prop :=
  ∀ label ∈ template.splitOn charSlash, label.count charPercent ≤ 1

/-- A label of a path against one of the template, with the part that its percent sign stands
for. -/
inductive LabelMatches : Str → Str → List Str → Prop
  | literal {t : Str} (h : charPercent ∉ t) : LabelMatches t t []
  | wild {before behind part : Str} (hbefore : charPercent ∉ before)
      (hbehind : charPercent ∉ behind) :
    LabelMatches (before ++ charPercent :: behind) (before ++ part ++ behind) [part]

/-- The labels of a path against the ones of the template, one by one. -/
def LabelsMatch : List Str → List Str → List Str → Prop
  | [], [], parts => parts = []
  | t :: ts, p :: ps, parts =>
    ∃ l ls, parts = l ++ ls ∧ LabelMatches t p l ∧ LabelsMatch ts ps ls
  | _, _, _ => False

def TemplateMatches (template path : Str) (parts : List Str) : Prop :=
  LabelsMatch (template.splitOn charSlash) (path.splitOn charSlash) parts

/-! ## A template and a path read side by side -/

def LabelEnd (s : Str) : Prop := s = [] ∨ ∃ t, s = charSlash :: t

/-- Characters that agree, and percent signs that stand for a part of a label which goes on as the
template does. -/
inductive ReadAlong : Str → Str → List Str → Prop
  | nil : ReadAlong [] [] []
  | char {c : UInt8} {t p : Str} {l : List Str} (hc : c ≠ charPercent) (h : ReadAlong t p l) :
    ReadAlong (c :: t) (c :: p) l
  | wild {behind part t p : Str} {l : List Str} (hbehind : charSlash ∉ behind)
      (hpart : charSlash ∉ part) (ht : LabelEnd t) (hp : LabelEnd p) (h : ReadAlong t p l) :
    ReadAlong (charPercent :: (behind ++ t)) (part ++ behind ++ p) (part :: l)

theorem readAlong_append {literal : Str} (h : charPercent ∉ literal) (t p : Str) (l : List Str) :
    ReadAlong (literal ++ t) p l ↔ ∃ q, p = literal ++ q ∧ ReadAlong t q l := by
  induction literal generalizing p with
  | nil => simp
  | cons c literal ih =>
    rw [List.mem_cons, not_or] at h
    constructor
    · intro hread
      generalize hs : (c :: literal) ++ t = s at hread
      cases hread with
      | nil => exact absurd hs (by simp)
      | char hc hread =>
        obtain ⟨rfl, rfl⟩ := List.cons.inj hs
        obtain ⟨q, rfl, hq⟩ := (ih h.2 _).mp hread
        exact ⟨q, rfl, hq⟩
      | wild hbehind hpart ht hp hread => exact absurd (List.cons.inj hs).1.symm h.1
    · rintro ⟨q, rfl, hq⟩
      exact ReadAlong.char (Ne.symm h.1) ((ih h.2 _).mpr ⟨q, rfl, hq⟩)

theorem takeWhile_append_labelEnd {a t : Str} (ha : charSlash ∉ a) (ht : LabelEnd t) :
    (a ++ t).takeWhile (fun c => c ≠ charSlash) = a := by
  have hall : ∀ c ∈ a, decide (c ≠ charSlash) = true := fun c hc =>
    decide_eq_true fun h => ha (h ▸ hc)
  rw [List.takeWhile_append_of_pos hall]
  rcases ht with rfl | ⟨t, rfl⟩
  · rw [List.takeWhile_nil, List.append_nil]
  · rw [List.takeWhile_cons_of_neg (by simp), List.append_nil]

theorem takeWhile_label (s : Str) : charSlash ∉ s.takeWhile (fun c => c ≠ charSlash) ∧
    LabelEnd (s.drop (s.takeWhile fun c => c ≠ charSlash).length) ∧
    s = s.takeWhile (fun c => c ≠ charSlash) ++
      s.drop (s.takeWhile fun c => c ≠ charSlash).length := by
  induction s with
  | nil => exact ⟨by simp, Or.inl rfl, rfl⟩
  | cons c s ih =>
    by_cases hc : c = charSlash
    · rw [List.takeWhile_cons_of_neg (by simpa using hc)]
      exact ⟨by simp, Or.inr ⟨s, by rw [hc]; rfl⟩, rfl⟩
    · rw [List.takeWhile_cons_of_pos (by simpa using hc)]
      obtain ⟨hmem, hend, heq⟩ := ih
      refine ⟨?_, hend, ?_⟩
      · rw [List.mem_cons, not_or]
        exact ⟨Ne.symm hc, hmem⟩
      · rw [List.cons_append, List.length_cons, List.drop_succ_cons, ← heq]

theorem readAlong_wild {t behind : Str} (hbehind : charSlash ∉ behind) (ht : LabelEnd t)
    (p : Str) (l : List Str) :
    ReadAlong (charPercent :: (behind ++ t)) p l ↔
      ∃ part q ls, p = part ++ behind ++ q ∧ charSlash ∉ part ∧ LabelEnd q ∧ l = part :: ls ∧
        ReadAlong t q ls := by
  constructor
  · intro h
    generalize hs : charPercent :: (behind ++ t) = s at h
    cases h with
    | nil => exact absurd hs (by simp)
    | char hc h => exact absurd (List.cons.inj hs).1.symm hc
    | @wild behind' part t' q ls hbehind' hpart ht' hq h =>
      have htail := (List.cons.inj hs).2
      have hlabel : behind = behind' := by
        rw [← takeWhile_append_labelEnd hbehind ht, htail, takeWhile_append_labelEnd hbehind' ht']
      subst hlabel
      obtain rfl := List.append_cancel_left htail
      exact ⟨part, q, ls, rfl, hpart, hq, rfl, h⟩
  · rintro ⟨part, q, ls, rfl, hpart, hq, rfl, h⟩
    exact ReadAlong.wild hbehind hpart ht hq h

theorem readAlong_nil (p : Str) (l : List Str) : ReadAlong [] p l ↔ p = [] ∧ l = [] := by
  constructor
  · intro h
    cases h
    exact ⟨rfl, rfl⟩
  · rintro ⟨rfl, rfl⟩
    exact ReadAlong.nil

/-! ## The loop reads them side by side -/

theorem takeWhile_literal (s : Str) : charPercent ∉ s.takeWhile (fun c => c ≠ charPercent) ∧
    s = s.takeWhile (fun c => c ≠ charPercent) ++
      s.drop (s.takeWhile fun c => c ≠ charPercent).length ∧
    (s.drop (s.takeWhile fun c => c ≠ charPercent).length = [] ∨
      ∃ t, s.drop (s.takeWhile fun c => c ≠ charPercent).length = charPercent :: t) := by
  induction s with
  | nil => exact ⟨by simp, rfl, Or.inl rfl⟩
  | cons c s ih =>
    by_cases hc : c = charPercent
    · rw [List.takeWhile_cons_of_neg (by simpa using hc)]
      exact ⟨by simp, rfl, Or.inr ⟨s, by rw [hc]; rfl⟩⟩
    · rw [List.takeWhile_cons_of_pos (by simpa using hc)]
      obtain ⟨hmem, heq, hend⟩ := ih
      refine ⟨?_, ?_, hend⟩
      · rw [List.mem_cons, not_or]
        exact ⟨Ne.symm hc, hmem⟩
      · rw [List.cons_append, List.length_cons, List.drop_succ_cons, ← heq]

section
variable {alloc : Nat → Bool} {fuel : Nat} {template path : Str} {labels : List Str}

theorem takeWhile_append_percent {literal t : Str} (h : charPercent ∉ literal)
    (ht : t = [] ∨ ∃ u, t = charPercent :: u) :
    (literal ++ t).takeWhile (fun c => c ≠ charPercent) = literal := by
  have hall : ∀ c ∈ literal, decide (c ≠ charPercent) = true := fun c hc =>
    decide_eq_true fun he => h (he ▸ hc)
  rw [List.takeWhile_append_of_pos hall]
  rcases ht with rfl | ⟨u, rfl⟩
  · rw [List.takeWhile_nil, List.append_nil]
  · rw [List.takeWhile_cons_of_neg (by simp), List.append_nil]

theorem decodeManyLoop_none {literal t : Str} (h : charPercent ∉ literal)
    (ht : t = [] ∨ ∃ u, t = charPercent :: u) (hne : literal ++ t ≠ [])
    (hno : ¬literal <+: path) :
    decodeManyLoop alloc (fuel + 1) (literal ++ t) path labels = .ok none := by
  have hpre : literal.isPrefixOf path = false := by
    rw [← Bool.not_eq_true, List.isPrefixOf_iff_prefix]
    exact hno
  rw [decodeManyLoop, if_neg hne]
  dsimp only
  rw [takeWhile_append_percent h ht, hpre]
  rfl

theorem decodeManyLoop_literal {literal q : Str} (h : charPercent ∉ literal) :
    decodeManyLoop alloc (fuel + 1) literal (literal ++ q) labels = .ok (some (q, labels)) := by
  rw [decodeManyLoop]
  by_cases hnil : literal = []
  · rw [if_pos hnil, hnil, List.nil_append]
  · rw [if_neg hnil]
    have htake : literal.takeWhile (fun c => c ≠ charPercent) = literal := by
      have happend := takeWhile_append_percent h (Or.inl rfl)
      rwa [List.append_nil] at happend
    dsimp only
    rw [htake, isPrefixOf_append_self, if_neg (by simp), List.drop_left, List.drop_length]

theorem decodeManyLoop_wild {literal behind t label q : Str} (h : charPercent ∉ literal)
    (hbehind : charSlash ∉ behind) (ht : LabelEnd t) (hlabel : charSlash ∉ label)
    (hq : LabelEnd q) :
    decodeManyLoop alloc (fuel + 1) (literal ++ charPercent :: (behind ++ t))
        (literal ++ (label ++ q)) labels =
      if label.length < behind.length ∨ label.drop (label.length - behind.length) ≠ behind then
        .ok none
      else if !alloc labels.length then .error .enomem
      else decodeManyLoop alloc fuel t q
        (labels ++ [busLabelUnescapeN (label.take (label.length - behind.length))]) := by
  rw [decodeManyLoop, if_neg (by simp)]
  dsimp only
  rw [takeWhile_append_percent h (Or.inr ⟨_, rfl⟩), isPrefixOf_append_self, if_neg (by simp),
    List.drop_left, List.drop_left]
  dsimp only
  rw [takeWhile_append_labelEnd hbehind ht, takeWhile_append_labelEnd hlabel hq, List.drop_left,
    List.drop_left]

theorem label_suffix_iff (label behind : Str) :
    ¬(label.length < behind.length ∨ label.drop (label.length - behind.length) ≠ behind) ↔
      label = label.take (label.length - behind.length) ++ behind := by
  constructor
  · intro h
    rw [not_or, not_not] at h
    conv_lhs => rw [← List.take_append_drop (label.length - behind.length) label, h.2]
  · intro h
    have hlen := congrArg List.length h
    rw [List.length_append, List.length_take] at hlen
    rw [not_or, not_not]
    refine ⟨by omega, ?_⟩
    generalize hn : label.length - behind.length = n at h hlen ⊢
    have htake : (label.take n).length = n := by
      rw [List.length_take]
      omega
    calc label.drop n = (label.take n ++ behind).drop n := by rw [← h]
      _ = behind := by
        rw [List.drop_append_of_le_length htake.ge, List.drop_of_length_le htake.le,
          List.nil_append]

theorem template_cases (template : Str) : charPercent ∉ template ∨
    ∃ literal behind t, template = literal ++ charPercent :: (behind ++ t) ∧
      charPercent ∉ literal ∧ charSlash ∉ behind ∧ LabelEnd t := by
  obtain ⟨hliteral, heq, hnil | ⟨t, ht⟩⟩ := takeWhile_literal template
  · rw [hnil, List.append_nil] at heq
    exact Or.inl (heq ▸ hliteral)
  · obtain ⟨hlabel, hend, hsplit⟩ := takeWhile_label t
    refine Or.inr ⟨_, _, _, ?_, hliteral, hlabel, hend⟩
    rw [← hsplit, ← ht]
    exact heq

theorem decodeManyLoop_sound {r : List Str} (hfuel : template.length ≤ fuel)
    (h : decodeManyLoop alloc fuel template path labels = .ok (some ([], r))) :
    ∃ l, ReadAlong template path l ∧ r = labels ++ l.map busLabelUnescapeN := by
  induction fuel generalizing template path labels with
  | zero =>
    obtain rfl := List.length_eq_zero_iff.mp (Nat.le_zero.mp hfuel)
    obtain ⟨rfl, rfl⟩ := Prod.mk.inj (Option.some.inj (Except.ok.inj h))
    exact ⟨[], ReadAlong.nil, by simp⟩
  | succ fuel ih =>
    rcases template_cases template with hno | ⟨literal, behind, t, rfl, hliteral, hbehind, ht⟩
    · by_cases hpre : template <+: path
      · obtain ⟨q, rfl⟩ := hpre
        rw [decodeManyLoop_literal hno] at h
        obtain ⟨rfl, rfl⟩ := Prod.mk.inj (Option.some.inj (Except.ok.inj h))
        refine ⟨[], ?_, by simp⟩
        have happend := (readAlong_append hno [] (template ++ []) []).mpr ⟨[], rfl, ReadAlong.nil⟩
        rw [List.append_nil] at happend ⊢
        exact happend
      · have hne : template ≠ [] := by
          rintro rfl
          exact hpre (List.nil_prefix)
        rw [← List.append_nil template] at h hne
        rw [decodeManyLoop_none hno (Or.inl rfl) hne hpre] at h
        exact absurd h (by simp)
    · by_cases hpre : literal <+: path
      · obtain ⟨p, rfl⟩ := hpre
        obtain ⟨hlabel, hend, hsplit⟩ := takeWhile_label p
        rw [hsplit, decodeManyLoop_wild hliteral hbehind ht hlabel hend] at h
        generalize p.takeWhile (fun c => c ≠ charSlash) = label at hlabel hend hsplit h
        by_cases hsuffix : label.length < behind.length ∨
            label.drop (label.length - behind.length) ≠ behind
        · rw [if_pos hsuffix] at h
          exact absurd h (by simp)
        rw [if_neg hsuffix] at h
        split_ifs at h
        have hpart := (label_suffix_iff _ _).mp hsuffix
        have hlen : t.length ≤ fuel := by
          simp only [List.length_append, List.length_cons] at hfuel
          omega
        obtain ⟨ls, hread, rfl⟩ := ih hlen h
        refine ⟨label.take (label.length - behind.length) :: ls,
          (readAlong_append hliteral _ _ _).mpr ⟨p, rfl, ?_⟩, ?_⟩
        · refine (readAlong_wild hbehind ht _ _).mpr ⟨_, _, ls, ?_, ?_, hend, rfl, hread⟩
          · rw [← hpart]
            exact hsplit
          · exact fun hmem => hlabel (List.mem_of_mem_take hmem)
        · rw [List.map_cons, List.append_assoc, List.singleton_append]
      · rw [decodeManyLoop_none hliteral (Or.inr ⟨_, rfl⟩) (by simp) hpre] at h
        exact absurd h (by simp)

theorem decodeManyLoop_complete (halloc : ∀ n, alloc n = true) (hfuel : template.length ≤ fuel)
    {l : List Str} (h : ReadAlong template path l) :
    decodeManyLoop alloc fuel template path labels =
      .ok (some ([], labels ++ l.map busLabelUnescapeN)) := by
  induction fuel generalizing template path labels l with
  | zero =>
    obtain rfl := List.length_eq_zero_iff.mp (Nat.le_zero.mp hfuel)
    obtain ⟨rfl, rfl⟩ := (readAlong_nil path l).mp h
    rw [List.map_nil, List.append_nil]
    rfl
  | succ fuel ih =>
    rcases template_cases template with hno | ⟨literal, behind, t, rfl, hliteral, hbehind, ht⟩
    · rw [← List.append_nil template] at h
      obtain ⟨q, rfl, hq⟩ := (readAlong_append hno _ _ _).mp h
      obtain ⟨rfl, rfl⟩ := (readAlong_nil q l).mp hq
      rw [decodeManyLoop_literal hno, List.map_nil, List.append_nil]
    · obtain ⟨p, rfl, hp⟩ := (readAlong_append hliteral _ _ _).mp h
      obtain ⟨part, q, ls, rfl, hpart, hq, rfl, hread⟩ := (readAlong_wild hbehind ht _ _).mp hp
      have hlabel : charSlash ∉ part ++ behind := by
        rw [List.mem_append, not_or]
        exact ⟨hpart, hbehind⟩
      have htake : (part ++ behind).take ((part ++ behind).length - behind.length) = part := by
        rw [List.length_append, Nat.add_sub_cancel, List.take_left]
      have hlen : t.length ≤ fuel := by
        simp only [List.length_append, List.length_cons] at hfuel
        omega
      rw [decodeManyLoop_wild hliteral hbehind ht hlabel hq,
        if_neg ((label_suffix_iff _ _).mpr (by rw [htake])), halloc, htake]
      simp only [Bool.not_true, Bool.false_eq_true, if_false]
      rw [ih hlen hread, List.map_cons, List.append_assoc, List.singleton_append]

end

/-! ## Side by side is label by label -/

theorem label_cases {t : Str} (h : t.count charPercent ≤ 1) : charPercent ∉ t ∨
    ∃ before behind, t = before ++ charPercent :: behind ∧ charPercent ∉ before ∧
      charPercent ∉ behind := by
  by_cases hmem : charPercent ∈ t
  · obtain ⟨before, behind, rfl⟩ := List.append_of_mem hmem
    rw [List.count_append, List.count_cons_self] at h
    refine Or.inr ⟨before, behind, rfl, ?_, ?_⟩
    · rw [← List.count_eq_zero]
      omega
    · rw [← List.count_eq_zero]
      omega
  · exact Or.inl hmem

theorem ReadAlong.labelEnd {t p : Str} {l : List Str} (h : ReadAlong t p l) (ht : LabelEnd t) :
    LabelEnd p := by
  rcases ht with rfl | ⟨u, rfl⟩
  · exact Or.inl ((readAlong_nil p l).mp h).1
  · cases h with
    | char hc h => exact Or.inr ⟨_, rfl⟩

theorem readAlong_label {t u : Str} (hcount : t.count charPercent ≤ 1) (ht : charSlash ∉ t)
    (hu : LabelEnd u) (path : Str) (l : List Str) :
    ReadAlong (t ++ u) path l ↔ ∃ p q a b, path = p ++ q ∧ charSlash ∉ p ∧ LabelEnd q ∧
      l = a ++ b ∧ LabelMatches t p a ∧ ReadAlong u q b := by
  constructor
  · intro h
    rcases label_cases hcount with hno | ⟨before, behind, rfl, hbefore, hbehind⟩
    · obtain ⟨q, rfl, hq⟩ := (readAlong_append hno u path l).mp h
      exact ⟨t, q, [], l, rfl, ht, hq.labelEnd hu, rfl, .literal hno, hq⟩
    · rw [List.mem_append, List.mem_cons, not_or, not_or] at ht
      rw [List.append_assoc, List.cons_append] at h
      obtain ⟨q, rfl, hq⟩ := (readAlong_append hbefore _ path l).mp h
      obtain ⟨part, q, ls, rfl, hpart, hend, rfl, hread⟩ :=
        (readAlong_wild ht.2.2 hu q l).mp hq
      refine ⟨before ++ part ++ behind, q, [part], ls, by simp, ?_, hend, rfl,
        .wild hbefore hbehind, hread⟩
      simp only [List.mem_append, not_or]
      exact ⟨⟨ht.1, hpart⟩, ht.2.2⟩
  · rintro ⟨p, q, a, b, rfl, hp, hend, rfl, hmatch, hread⟩
    cases hmatch with
    | literal hno => exact (readAlong_append hno u _ b).mpr ⟨q, rfl, hread⟩
    | @wild before behind part hbefore hbehind =>
      simp only [List.mem_append, not_or] at hp
      rw [List.append_assoc, List.cons_append]
      refine (readAlong_append hbefore _ _ _).mpr ⟨part ++ behind ++ q, by simp, ?_⟩
      exact (readAlong_wild hp.2 hu _ _).mpr ⟨part, q, b, rfl, hp.1.2, hend, rfl, hread⟩

theorem readAlong_slash (t p : Str) (l : List Str) :
    ReadAlong (charSlash :: t) p l ↔ ∃ q, p = charSlash :: q ∧ ReadAlong t q l :=
  @readAlong_append [charSlash] (by decide) t p l

theorem labelEnd_joinPath (ps : List Str) : LabelEnd (joinPath ps) := by
  cases ps with
  | nil => exact Or.inl rfl
  | cons p ps => exact Or.inr ⟨p ++ joinPath ps, rfl⟩

theorem label_unique {p q p' q' : Str} (hp : charSlash ∉ p) (hp' : charSlash ∉ p')
    (hq : LabelEnd q) (hq' : LabelEnd q') (h : p ++ q = p' ++ q') : p = p' ∧ q = q' := by
  have hlabel : p = p' := by
    rw [← takeWhile_append_labelEnd hp hq, h, takeWhile_append_labelEnd hp' hq']
  subst hlabel
  exact ⟨rfl, List.append_cancel_left h⟩

theorem readAlong_joinPath {ts ps : List Str} (hts : ∀ t ∈ ts, charSlash ∉ t)
    (hps : ∀ p ∈ ps, charSlash ∉ p) (hcount : ∀ t ∈ ts, t.count charPercent ≤ 1)
    (l : List Str) : ReadAlong (joinPath ts) (joinPath ps) l ↔ LabelsMatch ts ps l := by
  induction ts generalizing ps l with
  | nil =>
    have hnil : joinPath [] = [] := rfl
    rw [hnil, readAlong_nil]
    cases ps with
    | nil => exact ⟨fun h => h.2, fun h => ⟨rfl, h⟩⟩
    | cons p ps => exact ⟨fun h => absurd h.1 (by simp [joinPath]), fun h => h.elim⟩
  | cons t ts ih =>
    have hjoin : ∀ e es, joinPath (e :: es) = charSlash :: (e ++ joinPath es) := fun _ _ => rfl
    rw [hjoin, readAlong_slash]
    cases ps with
    | nil =>
      refine ⟨?_, fun h => h.elim⟩
      rintro ⟨_, hq, _⟩
      exact absurd hq (by simp [joinPath])
    | cons p ps =>
      obtain ⟨ht, hts⟩ := List.forall_mem_cons.mp hts
      obtain ⟨hp, hps⟩ := List.forall_mem_cons.mp hps
      obtain ⟨hone, hcount⟩ := List.forall_mem_cons.mp hcount
      have hiff := readAlong_label hone ht (labelEnd_joinPath ts)
      rw [hjoin]
      constructor
      · rintro ⟨q, hq, hread⟩
        obtain rfl := (List.cons.inj hq).2
        obtain ⟨p', q', a, b, hsplit, hp', hq', rfl, hmatch, hread⟩ := (hiff _ _).mp hread
        obtain ⟨rfl, rfl⟩ := label_unique hp hp' (labelEnd_joinPath ps) hq' hsplit
        exact ⟨a, b, rfl, hmatch, (ih hts hps hcount b).mp hread⟩
      · rintro ⟨a, b, rfl, hmatch, hrest⟩
        refine ⟨_, rfl, (hiff _ _).mpr ⟨p, _, a, b, rfl, hp, labelEnd_joinPath ps, rfl, hmatch, ?_⟩⟩
        exact (ih hts hps hcount b).mpr hrest

theorem joinPath_splitOn (s : Str) : joinPath (s.splitOn charSlash) = charSlash :: s := by
  rw [joinPath_eq (List.splitOn_ne_nil charSlash s), List.intercalate_splitOn]

theorem slash_notMem_splitOn {s e : Str} (h : e ∈ s.splitOn charSlash) : charSlash ∉ e :=
  fun hc => (mem_of_mem_splitOn h hc).2 rfl

theorem readAlong_iff {template : Str} (hone : OnePercent template) (path : Str) (l : List Str) :
    ReadAlong template path l ↔ TemplateMatches template path l := by
  have hslash : ReadAlong (charSlash :: template) (charSlash :: path) l ↔
      ReadAlong template path l := by
    rw [readAlong_slash]
    constructor
    · rintro ⟨q, hq, hread⟩
      rwa [(List.cons.inj hq).2]
    · exact fun hread => ⟨path, rfl, hread⟩
  rw [← hslash, ← joinPath_splitOn, ← joinPath_splitOn]
  exact readAlong_joinPath (fun _ => slash_notMem_splitOn) (fun _ => slash_notMem_splitOn) hone l

/-! ## Encoding is reading side by side -/

theorem encodeManyLoop_char {c : UInt8} (h : c ≠ charPercent) (t : Str) (labels : List Str) :
    encodeManyLoop (c :: t) labels = c :: encodeManyLoop t labels := by
  rw [encodeManyLoop.eq_def]
  dsimp only
  rw [if_neg h]

theorem encodeManyLoop_percent (t label : Str) (labels : List Str) :
    encodeManyLoop (charPercent :: t) (label :: labels) = label ++ encodeManyLoop t labels := by
  rw [encodeManyLoop.eq_def]
  rfl

theorem encodeManyLoop_literal {literal : Str} (h : charPercent ∉ literal) (t : Str)
    (labels : List Str) :
    encodeManyLoop (literal ++ t) labels = literal ++ encodeManyLoop t labels := by
  induction literal with
  | nil => rfl
  | cons c literal ih =>
    rw [List.mem_cons, not_or] at h
    rw [List.cons_append, encodeManyLoop_char (Ne.symm h.1), ih h.2, List.cons_append]

theorem readAlong_encodeManyLoop {ts labels : List Str} (hts : ∀ t ∈ ts, charSlash ∉ t)
    (hcount : ∀ t ∈ ts, t.count charPercent ≤ 1) (hlabels : ∀ l ∈ labels, charSlash ∉ l)
    (hlen : labels.length = (joinPath ts).count charPercent) :
    ReadAlong (joinPath ts) (encodeManyLoop (joinPath ts) labels) labels := by
  induction ts generalizing labels with
  | nil =>
    obtain rfl := List.length_eq_zero_iff.mp hlen
    exact ReadAlong.nil
  | cons t ts ih =>
    obtain ⟨ht, hts⟩ := List.forall_mem_cons.mp hts
    obtain ⟨hone, hcount⟩ := List.forall_mem_cons.mp hcount
    have hjoin : joinPath (t :: ts) = (charSlash :: t) ++ joinPath ts := rfl
    rw [hjoin, List.count_append] at hlen
    have hend := labelEnd_joinPath ts
    rcases label_cases hone with hno | ⟨before, behind, hsplit, hbefore, hbehind⟩
    · have hliteral : charPercent ∉ charSlash :: t := by
        rw [List.mem_cons, not_or]
        exact ⟨by decide, hno⟩
      rw [List.count_eq_zero.mpr hliteral, Nat.zero_add] at hlen
      rw [hjoin, encodeManyLoop_literal hliteral, readAlong_append hliteral]
      exact ⟨_, rfl, ih hts hcount hlabels hlen⟩
    · rw [hsplit, List.mem_append, List.mem_cons, not_or, not_or] at ht
      have hliteral : charPercent ∉ charSlash :: before := by
        rw [List.mem_cons, not_or]
        exact ⟨by decide, hbefore⟩
      have hjoin' : joinPath (t :: ts) =
          (charSlash :: before) ++ charPercent :: (behind ++ joinPath ts) := by
        rw [hjoin, hsplit]
        simp
      rw [hsplit, List.count_cons_of_ne (by decide), List.count_append, List.count_cons_self,
        List.count_eq_zero.mpr hbefore, List.count_eq_zero.mpr hbehind] at hlen
      cases labels with
      | nil =>
        rw [List.length_nil] at hlen
        omega
      | cons label labels =>
        obtain ⟨hlabel, hlabels⟩ := List.forall_mem_cons.mp hlabels
        have hread := ih hts hcount hlabels (by rw [List.length_cons] at hlen; omega)
        rw [hjoin', encodeManyLoop_literal hliteral, readAlong_append hliteral,
          encodeManyLoop_percent, encodeManyLoop_literal hbehind]
        refine ⟨_, rfl, (readAlong_wild ht.2.2 hend _ _).mpr ?_⟩
        exact ⟨label, _, labels, (List.append_assoc _ _ _).symm, hlabel, hread.labelEnd hend, rfl,
          hread⟩

theorem encodeManyLabels_some (ids : List Str) :
    encodeManyLabels ids.length (ids.map some) = .ok (ids.map busLabelEscape) := by
  induction ids with
  | nil => rfl
  | cons id ids ih =>
    rw [List.length_cons, List.map_cons, encodeManyLabels, ih]
    rfl

theorem sdBusPathEncodeMany_ok {template : Str} {ids : List Str}
    (hlen : ids.length = template.count charPercent) :
    sdBusPathEncodeMany (some template) (ids.map some) =
      .ok (encodeManyLoop template (ids.map busLabelEscape)) := by
  unfold sdBusPathEncodeMany
  dsimp only
  rw [← hlen, encodeManyLabels_some]
  rfl

theorem readAlong_encode {template : Str} (hone : OnePercent template) {ids : List Str}
    (hlen : ids.length = template.count charPercent) :
    ReadAlong template (encodeManyLoop template (ids.map busLabelEscape))
      (ids.map busLabelEscape) := by
  have hlabels : ∀ l ∈ ids.map busLabelEscape, charSlash ∉ l := by
    intro l hl
    obtain ⟨id, -, rfl⟩ := List.mem_map.mp hl
    exact (busLabelEscape_element id).no_slash
  have hread := readAlong_encodeManyLoop (fun _ => slash_notMem_splitOn) hone hlabels (by
    rw [List.length_map, hlen, joinPath_splitOn, List.count_cons_of_ne (by decide)])
  rw [joinPath_splitOn, encodeManyLoop_char (by decide), readAlong_slash] at hread
  obtain ⟨q, hq, hread⟩ := hread
  rwa [(List.cons.inj hq).2]

section
variable {alloc : Nat → Bool} {template path : Str} {args : List OutArg}

theorem sdBusPathDecodeMany_of_readAlong (halloc : ∀ n, alloc n = true) {parts : List Str}
    (h : ReadAlong template path parts) :
    sdBusPathDecodeMany alloc (some path) (some template) args =
      (.ok true, copyLabels (parts.map busLabelUnescapeN) args) := by
  unfold sdBusPathDecodeMany
  dsimp only
  rw [decodeManyLoop_complete halloc le_rfl h]
  rfl

theorem readAlong_of_sdBusPathDecodeMany
    (h : (sdBusPathDecodeMany alloc (some path) (some template) args).1 = .ok true) :
    ∃ parts, ReadAlong template path parts := by
  unfold sdBusPathDecodeMany at h
  dsimp only at h
  cases hloop : decodeManyLoop alloc template.length template path [] with
  | error r =>
    rw [hloop] at h
    exact absurd h (by simp)
  | ok x =>
    rw [hloop] at h
    cases x with
    | none => exact absurd h (by simp)
    | some x =>
      obtain ⟨rest, labels⟩ := x
      dsimp only at h
      split_ifs at h with hrest
      · exact absurd h (by simp)
      · obtain rfl : rest = [] := Decidable.not_not.mp hrest
        obtain ⟨parts, hread, -⟩ := decodeManyLoop_sound le_rfl hloop
        exact ⟨parts, hread⟩

theorem sdBusPathDecodeMany_untouched {path template : Option Str}
    (h : (sdBusPathDecodeMany alloc path template args).1 ≠ .ok true) :
    (sdBusPathDecodeMany alloc path template args).2 = args := by
  unfold sdBusPathDecodeMany at h ⊢
  cases path with
  | none => rfl
  | some path =>
    cases template with
    | none => rfl
    | some template =>
      dsimp only at h ⊢
      cases hloop : decodeManyLoop alloc template.length template path [] with
      | error r => rfl
      | ok x =>
        rw [hloop] at h
        cases x with
        | none => rfl
        | some x =>
          dsimp only at h ⊢
          split_ifs at h ⊢ with hrest
          · rfl
          · exact absurd rfl h

end

theorem copyLabels_some (labels : List Str) (vars : List (Option Str))
    (h : vars.length = labels.length) :
    copyLabels labels (vars.map some) = labels.map fun l => some (some l) := by
  induction labels generalizing vars with
  | nil =>
    obtain rfl := List.length_eq_zero_iff.mp h
    rfl
  | cons l labels ih =>
    cases vars with
    | nil => exact absurd h (by simp)
    | cons v vars =>
      rw [List.map_cons, copyLabels, ih vars (Nat.succ.inj h)]
      rfl

/-- What is encoded by a template is decoded by it; a path is decoded if and only if its labels are
the ones of the template, but for the parts that stand for percent signs; and nothing is stored
otherwise. -/
theorem template_codec {template : Str} (hone : OnePercent template) :
    (∀ ids : List Str, ids.length = template.count charPercent → (∀ id ∈ ids, (0 : UInt8) ∉ id) →
      ∃ path, sdBusPathEncodeMany (some template) (ids.map some) = .ok path ∧
        ∀ vars : List (Option Str), vars.length = ids.length →
          sdBusPathDecodeMany (fun _ => true) (some path) (some template) (vars.map some) =
            (.ok true, ids.map fun id => some (some id))) ∧
    (∀ path args parts, TemplateMatches template path parts →
      sdBusPathDecodeMany (fun _ => true) (some path) (some template) args =
        (.ok true, copyLabels (parts.map busLabelUnescapeN) args)) ∧
    (∀ alloc path args,
      (sdBusPathDecodeMany alloc (some path) (some template) args).1 = .ok true →
        ∃ parts, TemplateMatches template path parts) ∧
    ∀ alloc path args, (sdBusPathDecodeMany alloc path (some template) args).1 ≠ .ok true →
      (sdBusPathDecodeMany alloc path (some template) args).2 = args := by
  refine ⟨fun ids hlen hclean => ?_, fun path args parts h => ?_, fun alloc path args h => ?_,
    fun _ _ _ => sdBusPathDecodeMany_untouched⟩
  · refine ⟨_, sdBusPathEncodeMany_ok hlen, fun vars hvars => ?_⟩
    have hback : (ids.map busLabelEscape).map busLabelUnescapeN = ids := by
      rw [List.map_map]
      conv_rhs => rw [← List.map_id ids]
      exact List.map_congr_left fun id hid => busLabelUnescapeN_escape (hclean id hid)
    rw [sdBusPathDecodeMany_of_readAlong (fun _ => rfl) (readAlong_encode hone hlen), hback,
      copyLabels_some ids vars hvars]
  · exact sdBusPathDecodeMany_of_readAlong (fun _ => rfl) ((readAlong_iff hone path parts).mpr h)
  · obtain ⟨parts, hread⟩ := readAlong_of_sdBusPathDecodeMany h
    exact ⟨parts, (readAlong_iff hone path parts).mp hread⟩

theorem template_codec_one :
    (∃ path, sdBusPathEncodeMany (some [47, 97, 37]) [some [98]] = .ok path ∧
      sdBusPathDecodeMany (fun _ => true) (some path) (some [47, 97, 37]) [some none] =
        (.ok true, [some (some [98])])) ∧
    (∃ parts, TemplateMatches [47, 97, 37] [47, 97, 98] parts) ∧
    (sdBusPathDecodeMany (fun _ => true) none (some [47, 97, 37]) [none]).2 = [none] := by
  have hone : OnePercent [47, 97, 37] := by
    unfold OnePercent
    decide
  obtain ⟨hround, hmatched, hsound, huntouched⟩ := template_codec hone
  obtain ⟨path, hencode, hdecode⟩ := hround [[98]] (by decide) (by decide)
  have hlabel : LabelMatches ([97] ++ charPercent :: []) ([97] ++ [98] ++ []) [[98]] :=
    .wild (by decide) (by decide)
  have hthere := hmatched [47, 97, 98] [none] [[98]]
    ⟨[], [[98]], rfl, .literal (by decide), [[98]], [], rfl, hlabel, rfl⟩
  exact ⟨⟨path, hencode, hdecode [none] rfl⟩, hsound _ _ _ (congrArg Prod.fst hthere),
    huntouched _ none [none] (by decide)⟩

end Basu
