import Basu.Path.Order
import Basu.Names.Grammar

/-! The object tree as `busctl` prints it: a sorted list of paths is cut into subtrees, each a run
of paths that start with the path in front of it. -/

namespace Basu.Path
open Lib

/-! ## `print_tree` -/

inductive Glyph
  | vertical
  | space
  deriving DecidableEq

structure Line where
  indent : List Glyph
  branch : Bool
  path : Str
  deriving DecidableEq

inductive PrintedTree
  | plain (l : List Str)
  | noObjects
  | onlyRoot
  | tree (lines : List Line)
  deriving DecidableEq

/-- "/" -/
def root : Str := [charSlash]

def startsWith (p q : Str) : Bool := (pathStartswith p q).isSome

def lookAhead (path x : Str) : List Str → List Str × Bool
  | [] => ([], false)
  | y :: n =>
    if !startsWith y path then (y :: n, false)
    else if !startsWith y x then (y :: n, true)
    else lookAhead path x n

def printSubtreeLoop : Nat → List Glyph → Str → List Str → List Line
  | 0, _, _, _ => []
  | _ + 1, _, _, [] => []
  | fuel + 1, indent, path, x :: l =>
    if !startsWith x path then []
    else
      let (n, hasMore) := lookAhead path x l
      ⟨indent, hasMore, x⟩ ::
        (printSubtreeLoop fuel (indent ++ [if hasMore then .vertical else .space]) x
          ((x :: l).dropWhile (· = x)) ++ printSubtreeLoop fuel indent path n)

def printSubtree (indent : List Glyph) (path : Str) (l : List Str) : List Line :=
  printSubtreeLoop (l.length + 1) indent path (l.dropWhile (· = path))

def printTree (argList : Bool) (l : List Str) : PrintedTree :=
  if argList then .plain l
  else if l = [] then .noObjects
  else if l = [root] then .onlyRoot
  else .tree (printSubtree [] root l)

def strcmp : Str → Str → Int
  | [], [] => 0
  | [], b :: _ => - (b.toNat : Int)
  | a :: _, [] => a.toNat
  | a :: as, b :: bs => if a = b then strcmp as bs else (a.toNat : Int) - b.toNat

def Above (a b : Str) : Prop := components a <+: components b

instance (a b : Str) : Decidable (Above a b) := inferInstanceAs (Decidable (_ <+: _))

def ancestors (l : List Str) (p : Str) : List Str := l.filter fun a => decide (a ≠ p ∧ Above a p)

def Nearest (l : List Str) (p a : Str) : Prop :=
  a ∈ ancestors l p ∧ ∀ b ∈ ancestors l p, Above b a

/-- The indentation counts the ancestors other than the root, and the line branches off if a later
path has the same nearest ancestor. -/
structure Shown (l : List Str) (line : Line) : Prop where
  level : line.indent.length = ((ancestors l line.path).filter (· ≠ root)).length
  branch : line.branch = true ↔
    ∃ q, [line.path, q].Sublist l ∧ ∀ a, Nearest l line.path a ↔ Nearest l q a

structure SortedPaths (l : List Str) : Prop where
  valid : ∀ p ∈ l, (0 : UInt8) ∉ p ∧ objectPathIsValid p = true
  nodup : l.Nodup
  sorted : l.Pairwise fun a b => strcmp a b ≤ 0

/-! ## Paths in the order of their bytes -/

section
variable {a b c : Str}

theorem Above.refl (a : Str) : Above a a := List.prefix_refl _

theorem Above.trans (h : Above a b) (h' : Above b c) : Above a c := List.IsPrefix.trans h h'

theorem above_root (a : Str) : Above root a := List.nil_prefix

theorem le_toNat_of_isWordChar {c : UInt8} (h : isWordChar c = true) : 47 ≤ c.toNat := by
  simp only [isWordChar, isLetter, isDigit, charUnderscore, Bool.or_eq_true, Bool.and_eq_true,
    decide_eq_true_iff, UInt8.le_iff_toNat_le, ← UInt8.toNat_inj] at h
  grind

structure IsPath (p : Str) (es : List Str) : Prop where
  eq : p = if es = [] then root else joinPath es
  components : components p = es
  absolute : isAbsolute p = true
  chars : ∀ c ∈ p, 47 ≤ c.toNat

theorem isPath_root : IsPath root [] := ⟨rfl, rfl, rfl, forall_mem_of_all rfl⟩

theorem isPath_of_valid (h0 : (0 : UInt8) ∉ a) (h : objectPathIsValid a = true) :
    ∃ es, IsPath a es := by
  obtain rfl | ⟨es, hne, hes, rfl⟩ := (objectPathIsValid_iff h0).mp h
  · exact ⟨[], isPath_root⟩
  · have hnames : ∀ e ∈ es, e ≠ [] ∧ charSlash ∉ e := fun e he =>
      ⟨(hes e he).ne_nil, (hes e he).no_slash⟩
    refine ⟨es, by rw [if_neg hne], ?_, ?_, ?_⟩
    · rw [joinPath_eq hne, components_slash, (components_intercalate hnames).1]
    · rw [joinPath_eq hne]
      rfl
    · intro c hc
      obtain ⟨e, he, hc⟩ := List.mem_flatMap.mp hc
      obtain rfl | hc := List.mem_cons.mp hc
      · exact le_rfl
      · exact le_toNat_of_isWordChar ((hes e he).chars c hc)

theorem IsPath.eq_of_components {es : List Str} (ha : IsPath a es) (hb : IsPath b es) : a = b :=
  ha.eq.trans hb.eq.symm

theorem startsWith_eq {es fs : List Str} (ha : IsPath a es) (hb : IsPath b fs) :
    startsWith a b = decide (Above b a) := by
  rw [Bool.eq_iff_iff, startsWith, pathStartswith_isSome, decide_eq_true_iff, ha.absolute,
    hb.absolute]
  exact ⟨fun h => h.2, fun h => ⟨rfl, h⟩⟩

theorem components_append_slash (p q : Str) :
    components (p ++ charSlash :: q) = components p ++ components q := by
  rw [components, List.splitOn_append_cons_self, List.filter_append]
  rfl

theorem eq_append_slash {es fs : List Str} (ha : IsPath a es) (hc : IsPath c fs)
    (h : Above a c) (hne : a ≠ c) (hroot : a ≠ root) : ∃ u, c = a ++ charSlash :: u := by
  rw [Above, ha.components, hc.components] at h
  obtain ⟨gs, rfl⟩ := h
  have hes : es ≠ [] := by
    rintro rfl
    exact hroot ha.eq
  have hgs : gs ≠ [] := by
    rintro rfl
    rw [List.append_nil] at hc
    exact hne (ha.eq_of_components hc)
  refine ⟨[charSlash].intercalate gs, ?_⟩
  rw [hc.eq, ha.eq, if_neg hes, if_neg (List.append_ne_nil_of_left_ne_nil hes gs), joinPath_append,
    joinPath_eq hgs]

theorem strcmp_pos_of_append (a : Str) {b : Str} (hb : b ≠ []) (h : ∀ c ∈ b, 0 < c.toNat) :
    0 < strcmp (a ++ b) a := by
  induction a with
  | nil =>
    obtain ⟨c, b, rfl⟩ := List.exists_cons_of_ne_nil hb
    have hc := h c List.mem_cons_self
    rw [List.nil_append, strcmp]
    omega
  | cons x a ih => rwa [List.cons_append, strcmp, if_pos rfl]

theorem eq_append_of_between {a : Str} (h : ∀ c ∈ a, 0 < c.toNat) {b s : Str}
    (hab : strcmp a b ≤ 0) (hbc : strcmp b (a ++ s) ≤ 0) : ∃ t, b = a ++ t ∧ strcmp t s ≤ 0 := by
  induction a generalizing b with
  | nil => exact ⟨b, rfl, hbc⟩
  | cons x a ih =>
    have hx := h x List.mem_cons_self
    cases b with
    | nil =>
      rw [strcmp] at hab
      omega
    | cons y b =>
      rw [List.cons_append, strcmp] at hbc
      rw [strcmp] at hab
      obtain rfl : x = y := by
        by_contra hne
        rw [if_neg hne] at hab
        rw [if_neg (Ne.symm hne)] at hbc
        exact hne (UInt8.toNat_inj.mp (by omega))
      rw [if_pos rfl] at hab hbc
      obtain ⟨t, rfl, ht⟩ := ih (fun c hc => h c (List.mem_cons_of_mem _ hc)) hab hbc
      exact ⟨t, rfl, ht⟩

end

/-- Ancestors come first, and descendants without a gap. -/
structure Ordered (l : List Str) : Prop where
  paths : ∀ p ∈ l, ∃ es, IsPath p es
  first : l.Pairwise fun a b => ¬ Above b a
  block : ∀ a b c, [a, b, c].Sublist l → Above a c → Above a b

theorem SortedPaths.ordered {l : List Str} (h : SortedPaths l) : Ordered l := by
  have hpaths : ∀ p ∈ l, ∃ es, IsPath p es := fun p hp =>
    isPath_of_valid (h.valid p hp).1 (h.valid p hp).2
  have hpos {p : Str} (hp : p ∈ l) : ∀ c ∈ p, 0 < c.toNat := fun c hc => by
    obtain ⟨es, hes⟩ := hpaths p hp
    exact Nat.lt_of_lt_of_le (by decide) (hes.chars c hc)
  refine ⟨hpaths, ?_, ?_⟩
  · refine (h.sorted.and h.nodup).imp_of_mem ?_
    rintro a b ha hb ⟨hle, hne⟩ habove
    obtain ⟨es, hes⟩ := hpaths a ha
    obtain ⟨fs, hfs⟩ := hpaths b hb
    have hcont : ∃ u, u ≠ [] ∧ a = b ++ u := by
      by_cases hroot : b = root
      · have habs := hes.absolute
        cases a with
        | nil => cases habs
        | cons c a =>
          obtain rfl : c = charSlash := by simpa [isAbsolute_cons] using habs
          refine ⟨a, ?_, by rw [hroot]; rfl⟩
          rintro rfl
          exact hne hroot.symm
      · obtain ⟨u, rfl⟩ := eq_append_slash hfs hes habove (Ne.symm hne) hroot
        exact ⟨_, List.cons_ne_nil _ _, rfl⟩
    obtain ⟨u, hu, rfl⟩ := hcont
    exact absurd hle (Int.not_le.mpr (strcmp_pos_of_append b hu fun c hc =>
      hpos ha c (List.mem_append_right _ hc)))
  · intro a b c hsub habove
    by_cases hroot : a = root
    · rw [hroot]
      exact above_root b
    have hsorted := h.sorted.sublist hsub
    have hnodup := h.nodup.sublist hsub
    obtain ⟨es, hes⟩ := hpaths a (hsub.subset (by simp))
    obtain ⟨fs, hfs⟩ := hpaths b (hsub.subset (by simp))
    obtain ⟨gs, hgs⟩ := hpaths c (hsub.subset (by simp))
    simp only [List.pairwise_cons, List.mem_cons, List.not_mem_nil, or_false, forall_eq_or_imp,
      forall_eq] at hsorted
    simp only [List.nodup_cons, List.mem_cons, List.not_mem_nil, or_false, not_or] at hnodup
    obtain ⟨u, rfl⟩ := eq_append_slash hes hgs habove hnodup.1.2 hroot
    obtain ⟨t, rfl, ht⟩ := eq_append_of_between (hpos (hsub.subset (by simp))) hsorted.1.1
      hsorted.2.1
    cases t with
    | nil => exact absurd (List.append_nil a).symm hnodup.1.1
    | cons y t =>
      obtain rfl : y = charSlash := by
        by_contra hne
        rw [strcmp, if_neg hne] at ht
        have hy := hfs.chars y (List.mem_append_right _ List.mem_cons_self)
        have h47 : charSlash.toNat = 47 := rfl
        exact hne (UInt8.toNat_inj.mp (by omega))
      rw [Above, components_append_slash]
      exact List.prefix_append _ _

/-! ## The loop prints a subtree -/

section
variable {l pre post : List Str} {p x : Str}

theorem Ordered.notMem_pre (h : Ordered (pre ++ x :: post)) : x ∉ pre := fun hx =>
  (List.pairwise_append.mp h.first).2.2 x hx x List.mem_cons_self (Above.refl x)

theorem Ordered.not_above_post (h : Ordered (pre ++ x :: post)) : ∀ y ∈ post, ¬ Above y x :=
  (List.pairwise_cons.mp (List.pairwise_append.mp h.first).2.1).1

theorem Ordered.notMem_post (h : Ordered (pre ++ x :: post)) : x ∉ post := fun hx =>
  h.not_above_post x hx (Above.refl x)

def upper (l : List Str) (p : Str) : List Str := l.filter fun a => decide (Above a p)

theorem upper_append (l l' : List Str) (p : Str) : upper (l ++ l') p = upper l p ++ upper l' p :=
  List.filter_append ..

theorem upper_eq_nil (h : ∀ a ∈ l, ¬ Above a p) : upper l p = [] :=
  List.filter_eq_nil_iff.mpr fun a ha => by simpa using h a ha

theorem Ordered.ancestors_eq (h : Ordered (pre ++ x :: post)) :
    ancestors (pre ++ x :: post) x = upper pre x := by
  have hpre : (pre.filter fun a => decide (a ≠ x ∧ Above a x)) = upper pre x := by
    refine List.filter_congr fun a ha => ?_
    have hne : a ≠ x := fun heq => h.notMem_pre (heq ▸ ha)
    simp [hne]
  have hpost : ((x :: post).filter fun a => decide (a ≠ x ∧ Above a x)) = [] := by
    refine List.filter_eq_nil_iff.mpr fun a ha => ?_
    obtain rfl | ha := List.mem_cons.mp ha
    · simp
    · simp [h.not_above_post a ha]
  rw [ancestors, List.filter_append, hpre, hpost, List.append_nil]

theorem mem_ancestors {a : Str} : a ∈ ancestors l p ↔ a ∈ l ∧ a ≠ p ∧ Above a p := by
  rw [ancestors, List.mem_filter, decide_eq_true_iff]

theorem Ordered.exists_nearest (h : Ordered l) (hne : ancestors l p ≠ []) : ∃ a, Nearest l p a := by
  refine ⟨(ancestors l p).getLast hne, List.getLast_mem hne, fun b hb => ?_⟩
  have hfirst : (ancestors l p).Pairwise fun a b => ¬ Above b a :=
    h.first.sublist List.filter_sublist
  rw [← List.dropLast_append_getLast hne] at hb hfirst
  obtain hb | hb := List.mem_append.mp hb
  · have hnot := (List.pairwise_append.mp hfirst).2.2 b hb _ (List.mem_singleton_self _)
    have hb' := (mem_ancestors.mp (List.dropLast_subset _ hb)).2.2
    have hlast := (mem_ancestors.mp (List.getLast_mem hne)).2.2
    exact (List.prefix_or_prefix_of_prefix hb' hlast).resolve_right hnot
  · rw [List.mem_singleton.mp hb]
    exact Above.refl _

theorem Ordered.ancestors_subset (h : Ordered l) {q : Str}
    (hsame : ∀ a, Nearest l p a ↔ Nearest l q a) : ∀ b ∈ ancestors l p, b ∈ ancestors l q := by
  intro b hb
  obtain ⟨a, ha⟩ := h.exists_nearest (List.ne_nil_of_mem hb)
  have hq := mem_ancestors.mp ((hsame a).mp ha).1
  have hmem := (mem_ancestors.mp hb).1
  refine mem_ancestors.mpr ⟨hmem, ?_, (ha.2 b hb).trans hq.2.2⟩
  rintro rfl
  obtain ⟨es, hes⟩ := h.paths b hmem
  obtain ⟨fs, hfs⟩ := h.paths a hq.1
  -- the nearest one would be the path itself
  have hcomp := List.IsPrefix.eq_of_length_le (ha.2 b hb) hq.2.2.length_le
  rw [hes.components, hfs.components] at hcomp
  subst hcomp
  exact hq.2.1 (hfs.eq_of_components hes)

theorem Ordered.sameNearest_iff (h : Ordered l) {q : Str} :
    (∀ a, Nearest l p a ↔ Nearest l q a) ↔ ancestors l p = ancestors l q := by
  constructor
  · intro hsame
    refine List.filter_congr fun b hb => ?_
    have hpq := h.ancestors_subset hsame b
    have hqp := h.ancestors_subset (fun a => (hsame a).symm) b
    rw [mem_ancestors, mem_ancestors] at hpq hqp
    rw [decide_eq_decide]
    exact ⟨fun hp => (hpq ⟨hb, hp⟩).2, fun hq => (hqp ⟨hb, hq⟩).2⟩
  · intro heq a
    rw [Nearest, Nearest, heq]

theorem lookAhead_append {path : Str} {m n : List Str}
    (hm : ∀ b ∈ m, startsWith b x = true ∧ startsWith b path = true)
    (hn : ∀ d ∈ n, startsWith d x = false) :
    lookAhead path x (m ++ n) = (n, n.head?.any (startsWith · path)) := by
  induction m with
  | nil =>
    cases n with
    | nil => rfl
    | cons d n =>
      rw [List.nil_append, lookAhead, hn d List.mem_cons_self, List.head?_cons, Option.any_some]
      cases startsWith d path <;> rfl
  | cons b m ih =>
    obtain ⟨hx, hpath⟩ := hm b List.mem_cons_self
    rw [List.cons_append, lookAhead, hx, hpath]
    exact ih fun b hb => hm b (List.mem_cons_of_mem _ hb)

theorem dropWhile_notMem (h : x ∉ l) : l.dropWhile (· = x) = l := by
  cases l with
  | nil => rfl
  | cons y l =>
    refine List.dropWhile_cons_of_neg ?_
    rw [decide_eq_true_iff]
    rintro rfl
    exact h List.mem_cons_self

theorem later_iff {q : Str} (h : x ∉ pre) : [x, q].Sublist (pre ++ x :: post) ↔ q ∈ post := by
  constructor
  · intro hsub
    obtain ⟨l₁, l₂, heq, h₁, h₂⟩ := List.sublist_append_iff.mp hsub
    cases l₁ with
    | nil =>
      rw [List.nil_append] at heq
      subst heq
      exact List.singleton_sublist.mp (List.cons_sublist_cons.mp h₂)
    | cons y l₁ =>
      obtain ⟨rfl, -⟩ := List.cons.inj heq
      exact absurd (h₁.subset List.mem_cons_self) h
  · intro hq
    exact (List.cons_sublist_cons.mpr (List.singleton_sublist.mpr hq)).trans
      (List.sublist_append_right pre _)

end

structure Cursor (L : List Str) (indent : List Glyph) (path : Str) (pre l : List Str) : Prop where
  eq : L = pre ++ l
  isPath : ∃ es, IsPath path es
  listed : path = root ∨ path ∈ pre
  below : ∀ d ∈ l, ¬ Above d path
  aligned : ∀ d ∈ l, Above path d → ∀ a ∈ pre, Above a d → Above a path
  level : indent.length = ((upper pre path).filter (· ≠ root)).length

section
variable {L pre post : List Str} {indent : List Glyph} {path x : Str}

theorem Cursor.upper_eq {l : List Str} (c : Cursor L indent path pre l) {d : Str} (hd : d ∈ l)
    (habove : Above path d) : upper pre d = upper pre path :=
  List.filter_congr fun a ha =>
    decide_eq_decide.mpr ⟨c.aligned d hd habove a ha, fun h => h.trans habove⟩

theorem Cursor.ne_root (c : Cursor L indent path pre (x :: post)) : x ≠ root := fun heq =>
  c.below x List.mem_cons_self (heq ▸ above_root path)

theorem Ordered.startsWith_eq (h : Ordered L) (hpath : ∃ es, IsPath path es) {y : Str}
    (hy : y ∈ L) : startsWith y path = decide (Above path y) := by
  obtain ⟨es, hes⟩ := h.paths y hy
  obtain ⟨fs, hfs⟩ := hpath
  exact Path.startsWith_eq hes hfs

theorem Cursor.enter (h : Ordered L) (c : Cursor L indent path pre (x :: post))
    (habove : Above path x) (g : Glyph) : Cursor L (indent ++ [g]) x (pre ++ [x]) post := by
  obtain rfl := c.eq
  refine ⟨by simp, h.paths x (by simp), .inr (by simp), h.not_above_post, ?_, ?_⟩
  · intro d hd hxd a ha had
    obtain ha | ha := List.mem_append.mp ha
    · refine h.block a x d ?_ had
      exact (List.singleton_sublist.mpr ha).append
        (List.cons_sublist_cons.mpr (List.singleton_sublist.mpr hd))
    · rw [List.mem_singleton.mp ha]
      exact Above.refl x
  · have hx : upper [x] x = [x] := by simp [upper, Above.refl x]
    rw [upper_append, c.upper_eq List.mem_cons_self habove, hx, List.filter_append,
      List.filter_cons_of_pos (by simpa using c.ne_root), List.length_append, List.length_append,
      c.level]
    rfl

theorem Ordered.not_above_of_gap {m l : List Str} {y : Str}
    (h : Ordered (pre ++ x :: (m ++ y :: l))) (hy : ¬ Above x y) : ∀ d ∈ y :: l, ¬ Above x d := by
  intro d hd hxd
  obtain rfl | hd := List.mem_cons.mp hd
  · exact hy hxd
  · refine hy (h.block x y d ?_ hxd)
    refine (List.cons_sublist_cons.mpr ?_).trans (List.sublist_append_right pre _)
    exact (List.cons_sublist_cons.mpr (List.singleton_sublist.mpr hd)).trans
      (List.sublist_append_right m _)

theorem Cursor.next {m l : List Str} (c : Cursor L indent path pre (x :: (m ++ l)))
    (hm : ∀ b ∈ m, Above x b) (hl : ∀ d ∈ l, ¬ Above x d) :
    Cursor L indent path (pre ++ x :: m) l := by
  obtain rfl := c.eq
  have hmem {d : Str} (hd : d ∈ l) : d ∈ x :: (m ++ l) :=
    List.mem_cons_of_mem _ (List.mem_append_right _ hd)
  refine ⟨by simp, c.isPath, c.listed.imp_right (List.mem_append_left _), fun d hd =>
    c.below d (hmem hd), ?_, ?_⟩
  · intro d hd hpath a ha had
    obtain ha | ha := List.mem_append.mp ha
    · exact c.aligned d (hmem hd) hpath a ha had
    · obtain rfl | ha := List.mem_cons.mp ha
      · exact absurd had (hl d hd)
      · exact absurd ((hm a ha).trans had) (hl d hd)
  · have hnil : upper (x :: m) path = [] := upper_eq_nil fun a ha => c.below a (by
      obtain rfl | ha := List.mem_cons.mp ha
      · exact List.mem_cons_self
      · exact List.mem_cons_of_mem _ (List.mem_append_left _ ha))
    rw [upper_append, hnil, List.append_nil, c.level]

theorem Cursor.shown {m l : List Str} (h : Ordered L) (c : Cursor L indent path pre (x :: (m ++ l)))
    (habove : Above path x) (hm : ∀ b ∈ m, Above x b) (hl : ∀ d ∈ l, ¬ Above x d) :
    Shown L ⟨indent, l.head?.any (startsWith · path), x⟩ := by
  obtain rfl := c.eq
  have hx : ancestors (pre ++ x :: (m ++ l)) x = upper pre path := by
    rw [h.ancestors_eq, c.upper_eq List.mem_cons_self habove]
  refine ⟨by rw [hx, c.level], ?_⟩
  simp only [h.sameNearest_iff, later_iff h.notMem_pre, hx]
  have hbehind {q : Str} (hq : q ∈ m ++ l)
      (heq : upper pre path = ancestors (pre ++ x :: (m ++ l)) q) : q ∈ l := by
    refine (List.mem_append.mp hq).resolve_left fun hmem => ?_
    have hin : x ∈ ancestors (pre ++ x :: (m ++ l)) q :=
      mem_ancestors.mpr ⟨by simp, fun hxq => h.notMem_post (hxq ▸ hq), hm q hmem⟩
    rw [← heq] at hin
    exact h.notMem_pre (List.mem_of_mem_filter hin)
  have hpath {q : Str} (heq : upper pre path = ancestors (pre ++ x :: (m ++ l)) q) :
      Above path q := by
    obtain rfl | hp := c.listed
    · exact above_root q
    · have hin : path ∈ upper pre path := List.mem_filter.mpr ⟨hp, decide_eq_true (Above.refl path)⟩
      rw [heq] at hin
      exact (mem_ancestors.mp hin).2.2
  cases l with
  | nil =>
    refine iff_of_false Bool.false_ne_true ?_
    rintro ⟨q, hq, heq⟩
    exact absurd (hbehind hq heq) List.not_mem_nil
  | cons y l =>
    rw [List.head?_cons, Option.any_some, h.startsWith_eq c.isPath (by simp), decide_eq_true_iff]
    constructor
    · intro hy
      refine ⟨y, by simp, ?_⟩
      have hsplit : pre ++ x :: (m ++ y :: l) = (pre ++ x :: m) ++ y :: l := by simp
      have hnil : upper (x :: m) y = [] := upper_eq_nil fun a ha hay => hl y List.mem_cons_self (by
        obtain rfl | ha := List.mem_cons.mp ha
        · exact hay
        · exact (hm a ha).trans hay)
      rw [hsplit] at h ⊢
      rw [h.ancestors_eq, upper_append, hnil, List.append_nil, c.upper_eq (by simp) hy]
    · rintro ⟨q, hq, heq⟩
      obtain rfl | hq := List.mem_cons.mp (hbehind hq heq)
      · exact hpath heq
      obtain rfl | hp := c.listed
      · exact above_root y
      · refine h.block path y q ?_ (hpath heq)
        refine (List.singleton_sublist.mpr hp).append ?_
        exact (List.cons_sublist_cons.mpr (List.singleton_sublist.mpr hq)).trans
          (List.sublist_append_right (x :: m) _)

theorem Cursor.split {l : List Str} (h : Ordered L) (c : Cursor L indent path pre (x :: l)) :
    ∃ m n, l = m ++ n ∧ (∀ b ∈ m, Above x b) ∧ ∀ d ∈ n, ¬ Above x d := by
  refine ⟨_, _, (List.takeWhile_append_dropWhile (p := fun b => decide (Above x b))).symm,
    fun b hb => by simpa using List.mem_takeWhile_imp hb, ?_⟩
  cases hn : l.dropWhile fun b => decide (Above x b) with
  | nil => exact fun _ hd => absurd hd List.not_mem_nil
  | cons y n =>
    obtain rfl := c.eq
    have hy := List.head?_dropWhile_not (fun b => decide (Above x b)) l
    rw [hn] at hy
    rw [← List.takeWhile_append_dropWhile (p := fun b => decide (Above x b)) (l := l), hn] at h
    exact h.not_above_of_gap (by simpa using hy)

theorem printSubtreeLoop_spec (h : Ordered L) (fuel : Nat) {l : List Str}
    (c : Cursor L indent path pre l) (hfuel : l.length < fuel) :
    (printSubtreeLoop fuel indent path l).map Line.path = l.takeWhile (startsWith · path) ∧
      ∀ line ∈ printSubtreeLoop fuel indent path l, Shown L line := by
  induction fuel generalizing indent path pre l with
  | zero => exact absurd hfuel (Nat.not_lt_zero _)
  | succ fuel ih =>
    cases l with
    | nil => exact ⟨rfl, fun _ hline => absurd hline List.not_mem_nil⟩
    | cons x l =>
      have hL {y : Str} (hy : y ∈ x :: l) : y ∈ L := c.eq ▸ List.mem_append_right pre hy
      have hx := h.startsWith_eq c.isPath (hL List.mem_cons_self)
      by_cases habove : Above path x
      swap
      · rw [decide_eq_false habove] at hx
        rw [printSubtreeLoop, hx, List.takeWhile_cons_of_neg (by simp [hx])]
        exact ⟨rfl, fun _ hline => absurd hline List.not_mem_nil⟩
      rw [decide_eq_true habove] at hx
      have hfresh : x ∉ l := by
        have h' := h
        rw [c.eq] at h'
        exact h'.notMem_post
      obtain ⟨m, n, rfl, hm, hn⟩ := c.split h
      have hlen := hfuel
      rw [List.length_cons, List.length_append] at hlen
      have hxs {y : Str} (hy : y ∈ m ++ n) : startsWith y x = decide (Above x y) :=
        h.startsWith_eq (h.paths x (hL List.mem_cons_self)) (hL (List.mem_cons_of_mem x hy))
      have hmx : ∀ b ∈ m, startsWith b x = true := fun b hb => by
        rw [hxs (List.mem_append_left n hb), decide_eq_true (hm b hb)]
      have hmpath : ∀ b ∈ m, startsWith b path = true := fun b hb => by
        rw [h.startsWith_eq c.isPath (hL (by simp [hb])), decide_eq_true (habove.trans (hm b hb))]
      have hnx : ∀ d ∈ n, startsWith d x = false := fun d hd => by
        rw [hxs (List.mem_append_right m hd), decide_eq_false (hn d hd)]
      have hlook := lookAhead_append (fun b hb => ⟨hmx b hb, hmpath b hb⟩) hnx
      have hskip : (x :: (m ++ n)).dropWhile (· = x) = m ++ n := by
        rw [List.dropWhile_cons_of_pos (p := (· = x)) (decide_eq_true rfl), dropWhile_notMem hfresh]
      have hend : n.takeWhile (startsWith · x) = [] := by
        cases n with
        | nil => rfl
        | cons d n => exact List.takeWhile_cons_of_neg (by simp [hnx d List.mem_cons_self])
      rw [printSubtreeLoop, hx, hlook, hskip]
      have hshown := c.shown h habove hm hn
      obtain ⟨hpaths, hlines⟩ := ih (c.enter h habove
        (if n.head?.any (startsWith · path) then .vertical else .space)) (by
          rw [List.length_append]
          omega)
      obtain ⟨hpaths', hlines'⟩ := ih (c.next hm hn) (by omega)
      rw [List.takeWhile_append_of_pos hmx, hend, List.append_nil] at hpaths
      rw [List.takeWhile_cons_of_pos (p := (startsWith · path)) hx,
        List.takeWhile_append_of_pos hmpath]
      constructor
      · change x :: (_ ++ _ : List Line).map Line.path = _
        rw [List.map_append, hpaths, hpaths']
      · intro line hline
        obtain rfl | hline := List.mem_cons.mp hline
        · exact hshown
        · exact (List.mem_append.mp hline).elim (hlines line) (hlines' line)

theorem Ordered.cursor {l : List Str} (h : Ordered (pre ++ l)) (hpre : ∀ a ∈ pre, a = root)
    (hl : root ∉ l) : Cursor (pre ++ l) [] root pre l where
  eq := rfl
  isPath := ⟨[], isPath_root⟩
  listed := .inl rfl
  below d hd habove := by
    obtain ⟨es, hes⟩ := h.paths d (List.mem_append_right pre hd)
    have hnil : components d = [] := List.prefix_nil.mp habove
    rw [hes.components] at hnil
    rw [hes.eq, if_pos hnil] at hd
    exact hl hd
  aligned _ _ _ a ha _ := by
    rw [hpre a ha]
    exact Above.refl root
  level := by
    rw [List.filter_eq_nil_iff.mpr fun a ha => by simp [hpre a (List.mem_of_mem_filter ha)]]
    rfl

theorem Ordered.root_notMem {y : Str} {l : List Str} (h : Ordered (y :: l)) : root ∉ l := fun hin =>
  (List.pairwise_cons.mp h.first).1 root hin (above_root y)

theorem printTree_shown {l : List Str} (h : SortedPaths l) (hne : l ≠ []) (hroot : l ≠ [root]) :
    ∃ lines, printTree false l = .tree lines ∧ lines.map Line.path = l.filter (· ≠ root) ∧
      ∀ line ∈ lines, Shown l line := by
  have hord := h.ordered
  have hsplit : ∃ pre l', l = pre ++ l' ∧ (∀ a ∈ pre, a = root) ∧ root ∉ l' ∧
      l.dropWhile (· = root) = l' := by
    obtain ⟨y, l, rfl⟩ := List.exists_cons_of_ne_nil hne
    by_cases hy : y = root
    · refine ⟨[y], l, rfl, fun a ha => (List.mem_singleton.mp ha).trans hy, hord.root_notMem, ?_⟩
      rw [List.dropWhile_cons_of_pos (p := (· = root)) (decide_eq_true hy),
        dropWhile_notMem hord.root_notMem]
    · have hnot : root ∉ y :: l := fun hin =>
        (List.mem_cons.mp hin).elim (fun heq => hy heq.symm) hord.root_notMem
      exact ⟨[], y :: l, rfl, fun _ ha => absurd ha List.not_mem_nil, hnot, dropWhile_notMem hnot⟩
  obtain ⟨pre, l', rfl, hpre, hl, hdrop⟩ := hsplit
  rw [printTree, if_neg Bool.false_ne_true, if_neg hne, if_neg hroot, printSubtree, hdrop]
  obtain ⟨hpaths, hlines⟩ := printSubtreeLoop_spec hord ((pre ++ l').length + 1)
    (hord.cursor hpre hl) (by
      rw [List.length_append]
      omega)
  refine ⟨_, rfl, ?_, hlines⟩
  have hall : ∀ y ∈ l', startsWith y root = true := fun y hy => by
    rw [hord.startsWith_eq ⟨[], isPath_root⟩ (List.mem_append_right pre hy),
      decide_eq_true (above_root y)]
  rw [hpaths, List.takeWhile_eq_self_iff.mpr hall, List.filter_append,
    List.filter_eq_nil_iff.mpr fun a ha => by simp [hpre a ha], List.nil_append]
  refine (List.filter_eq_self.mpr fun y hy => decide_eq_true ?_).symm
  rintro rfl
  exact hl hy

theorem printTree_shown_four :
    ∃ lines, printTree false [root, str "/a", str "/a/b", str "/c"] = .tree lines ∧
      lines.map Line.path = [root, str "/a", str "/a/b", str "/c"].filter (· ≠ root) ∧
      ∀ line ∈ lines, Shown [root, str "/a", str "/a/b", str "/c"] line :=
  printTree_shown ⟨forall_mem_of_all rfl, by decide, by decide⟩ (List.cons_ne_nil _ _) (by decide)

end

end Basu.Path
