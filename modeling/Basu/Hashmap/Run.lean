import Basu.Hashmap.Remove
import Mathlib.Data.Finmap

/-! The tables of hashmap.c as finite maps, through every run of calls. -/

namespace Basu

open Lib

def HashOps.setoid (ops : HashOps) : Setoid Ptr where
  r a b := ops.compare a b = 0
  iseqv := ⟨ops.compare_self, ops.compare_symm, ops.compare_trans⟩

abbrev Key (ops : HashOps) := Quotient ops.setoid

instance (ops : HashOps) : DecidableEq (Key ops) :=
  @Quotient.decidableEq _ ops.setoid fun a b => inferInstanceAs (Decidable (ops.compare a b = 0))

def HashOps.key (ops : HashOps) (p : Ptr) : Key ops := Quotient.mk ops.setoid p

theorem HashOps.key_eq (ops : HashOps) {a b : Ptr} :
    ops.key a = ops.key b ↔ ops.compare a b = 0 :=
  @Quotient.eq _ ops.setoid a b

abbrev FiniteMap (ops : HashOps) := Finmap fun _ : Key ops => Ptr

namespace HashmapBase

inductive Op
  | put (key value : Ptr) (a : Resizing)
  | remove (key : Ptr)
  | get (key : Ptr)
  | contains (key : Ptr)
  | clear

inductive Answer
  | code (r : Except Errno Nat)
  | data (p : Ptr)
  | found (b : Bool)
  | done

def step (h : HashmapBase) : Op → Except Fault (Answer × HashmapBase)
  | .put key value a => do
    let (r, h) ← if h.type = .set then h.setPut key a else h.hashmapPut key value a
    return (.code r, h)
  | .remove key => do
    let (p, h) ← h.internalHashmapRemove key
    return (.data p, h)
  | .get key => do return (.data (← h.internalHashmapGet key), h)
  | .contains key => do return (.found (← h.internalHashmapContains key), h)
  | .clear => .ok (.done, h.internalHashmapClear)

variable {ops : HashOps} {h h' : HashmapBase} {es : List (Ptr × Ptr)} {key : Ptr}
  {m m' : FiniteMap ops} {type : HashmapType}

def toMap (ops : HashOps) (es : List (Ptr × Ptr)) : FiniteMap ops :=
  (es.map fun e => (⟨ops.key e.1, e.2⟩ : Sigma fun _ : Key ops => Ptr)).toFinmap

theorem lookup_cons (e : Ptr × Ptr) :
    lookup ops (e :: es) key = if ops.compare e.1 key = 0 then some e.2 else lookup ops es key := by
  rw [lookup, List.find?_cons]
  split_ifs with hk
  · rw [decide_eq_true hk]
    rfl
  · rw [decide_eq_false hk]
    rfl

theorem toMap_cons (e : Ptr × Ptr) :
    toMap ops (e :: es) = (toMap ops es).insert (ops.key e.1) e.2 := Finmap.toFinmap_cons ..

theorem lookup_toMap (key : Ptr) : (toMap ops es).lookup (ops.key key) = lookup ops es key := by
  induction es with
  | nil => rfl
  | cons e es ih =>
    rw [toMap_cons, lookup_cons]
    split_ifs with hk
    · rw [← ops.key_eq.mpr hk, Finmap.lookup_insert]
    · rw [Finmap.lookup_insert_of_ne, ih]
      exact fun he => hk (ops.key_eq.mp he.symm)

theorem eq_of_lookup (hl : ∀ p, m.lookup (ops.key p) = m'.lookup (ops.key p)) : m = m' :=
  Finmap.ext_lookup fun k => Quotient.ind (motive := fun k => m.lookup k = m'.lookup k) hl k

theorem lookup_append (e : Ptr × Ptr) (hl : lookup ops es e.1 = none) :
    lookup ops (es ++ [e]) key =
      if ops.compare e.1 key = 0 then some e.2 else lookup ops es key := by
  have hno := (lookup_eq_none ops).mp hl
  clear hl
  induction es with
  | nil => exact lookup_cons e
  | cons a es ih =>
    have hrest := ih fun x hx => hno x (List.mem_cons_of_mem _ hx)
    rw [List.cons_append, lookup_cons, lookup_cons, hrest]
    split_ifs with ha he
    · exact absurd (ops.compare_trans ha (ops.compare_symm he)) (hno a (List.mem_cons_self ..))
    · rfl
    · rfl
    · rfl

theorem toMap_append (e : Ptr × Ptr) (hl : lookup ops es e.1 = none) :
    toMap ops (es ++ [e]) = (toMap ops es).insert (ops.key e.1) e.2 := by
  refine eq_of_lookup fun p => ?_
  rw [lookup_toMap, lookup_append e hl]
  split_ifs with hk
  · rw [← ops.key_eq.mpr hk, Finmap.lookup_insert]
  · rw [Finmap.lookup_insert_of_ne _ fun he => hk (ops.key_eq.mp he.symm), lookup_toMap]

theorem lookup_without {p : Ptr} : lookup ops (without ops es key) p =
    if ops.compare p key = 0 then none else lookup ops es p := by
  induction es with
  | nil => exact (ite_self none).symm
  | cons e es ih =>
    rw [without, List.filter_cons, lookup_cons]
    by_cases hk : ops.compare e.1 key = 0
    · rw [if_neg (by rw [decide_eq_true_eq]; exact not_not.mpr hk), ← without, ih]
      by_cases hp : ops.compare p key = 0
      · rw [if_pos hp, if_pos hp]
      · rw [if_neg hp, if_neg hp, if_neg fun he =>
          hp (ops.compare_trans (ops.compare_symm he) hk)]
    · rw [if_pos (by rw [decide_eq_true_eq]; exact hk), ← without, lookup_cons, ih]
      by_cases hp : ops.compare p key = 0
      · rw [if_pos hp, if_pos hp, if_neg fun he => hk (ops.compare_trans he hp)]
      · rw [if_neg hp, if_neg hp]

theorem toMap_without : toMap ops (without ops es key) = (toMap ops es).erase (ops.key key) := by
  refine eq_of_lookup fun p => ?_
  rw [lookup_toMap, lookup_without]
  split_ifs with hk
  · rw [ops.key_eq.mpr hk, Finmap.lookup_erase]
  · rw [Finmap.lookup_erase_ne fun he => hk (ops.key_eq.mp he), lookup_toMap]

theorem card_toMap (hd : es.Pairwise fun a b => ops.compare a.1 b.1 ≠ 0) :
    (toMap ops es).keys.card = es.length := by
  induction es with
  | nil => rfl
  | cons e es ih =>
    obtain ⟨hnew, hd⟩ := List.pairwise_cons.mp hd
    have hkeys : (toMap ops (e :: es)).keys = insert (ops.key e.1) (toMap ops es).keys := by
      ext k
      rw [toMap_cons, Finmap.mem_keys, Finmap.mem_insert, Finset.mem_insert, Finmap.mem_keys]
    have hnot : ops.key e.1 ∉ (toMap ops es).keys := by
      rw [Finmap.mem_keys, ← Finmap.lookup_eq_none, lookup_toMap, lookup_eq_none]
      exact fun x hx he => hnew x hx (ops.compare_symm he)
    rw [hkeys, Finset.card_insert_of_notMem hnot, ih hd, List.length_cons]

/-- What a call does to the entries of a table, in the order of their insertion, and its answer. A
put that lacks memory does nothing. -/
inductive Records (ops : HashOps) (type : HashmapType) (es : List (Ptr × Ptr)) :
    Op → Answer → List (Ptr × Ptr) → Prop
  | present (key value : Ptr) (a : Resizing) (v : Ptr) (hv : lookup ops es key = some v) :
      Records ops type es (.put key value a)
        (.code (if type = .set ∨ v = value then .ok 0 else .error .eexist)) es
  | added (key value : Ptr) (a : Resizing) (hv : lookup ops es key = none) :
      Records ops type es (.put key value a) (.code (.ok 1))
        (es ++ [(key, if type = .set then key else value)])
  | refused (key value : Ptr) (a : Resizing) (hv : lookup ops es key = none)
      (hno : a.granted = false ∨
        uint32Max / (type.entrySize + 1) < bucketsWanted (es.length + 1)) :
      Records ops type es (.put key value a) (.code (.error .enomem)) es
  | remove (key : Ptr) : Records ops type es (.remove key)
      (.data ((lookup ops es key).getD 0)) (without ops es key)
  | get (key : Ptr) : Records ops type es (.get key) (.data ((lookup ops es key).getD 0)) es
  | contains (key : Ptr) :
      Records ops type es (.contains key) (.found (lookup ops es key).isSome) es
  | clear : Records ops type es .clear .done []

/-- No new key is put when that takes more than `2 ^ 31` bytes of buckets. -/
def MeetsStep (h : HashmapBase) (op : Op) : Prop :=
  ∀ key value a, op = .put key value a → h.internalHashmapContains key = .ok false →
    ¬ h.Overgrown

structure SameKind (h h' : HashmapBase) : Prop where
  hashOps : h'.hashOps = h.hashOps
  type : h'.type = h.type

theorem Valid.stored {value : Ptr} {a : Resizing} {r : Except Errno Nat × HashmapBase}
    (hv : Valid h es) (hnone : lookup h.hashOps es key = none)
    (hs : Stored h es (key, if h.type = .set then key else value) a r) :
    ∃ es', Records h.hashOps h.type es (.put key value a) (.code r.1) es' ∧ Valid r.2 es' ∧
      SameKind h r.2 := by
  cases hs with
  | put g hg hops htype _ => exact ⟨_, .added key value a hnone, hg, hops, htype⟩
  | refused hno =>
    refine ⟨es, .refused key value a hnone ?_, hv, rfl, rfl⟩
    rw [← hv.nEntries]
    exact hno.2

theorem Valid.put_cases (hv : Valid h es) (key value : Ptr) (a : Resizing) :
    (∀ v, lookup h.hashOps es key = some v → h.step (.put key value a) =
      .ok (.code (if h.type = .set ∨ v = value then .ok 0 else .error .eexist), h)) ∧
    (lookup h.hashOps es key = none →
      (h.Overgrown → h.step (.put key value a) = .error .undefined) ∧
      (¬ h.Overgrown → ∃ r : Except Errno Nat × HashmapBase,
        h.step (.put key value a) = .ok (.code r.1, r.2) ∧
        Stored h es (key, if h.type = .set then key else value) a r)) := by
  unfold HashmapBase.step
  by_cases hset : h.type = .set
  · obtain ⟨hsome, hnone⟩ := hv.setPut hset key a
    simp only [hset, true_or, if_true]
    refine ⟨fun v hv' => by rw [hsome v hv']; rfl, fun hn => ⟨fun ho => ?_, fun ho => ?_⟩⟩
    · rw [(hnone hn).1 ho]
      rfl
    · obtain ⟨r, hr, hs⟩ := (hnone hn).2 ho
      rw [hr]
      exact ⟨r, rfl, hs⟩
  · obtain ⟨hsome, hnone⟩ := hv.hashmapPut hset key value a
    simp only [hset, false_or, if_false]
    refine ⟨fun v hv' => by rw [hsome v hv']; rfl, fun hn => ⟨fun ho => ?_, fun ho => ?_⟩⟩
    · rw [(hnone hn).1 ho]
      rfl
    · obtain ⟨r, hr, hs⟩ := (hnone hn).2 ho
      rw [hr]
      exact ⟨r, rfl, hs⟩

theorem Valid.not_meetsStep_put (hv : Valid h es) (key value : Ptr) (a : Resizing) :
    ¬ h.MeetsStep (.put key value a) ↔ lookup h.hashOps es key = none ∧ h.Overgrown := by
  have hcontains := hv.contains key
  constructor
  · intro hno
    obtain ⟨k, v, b, he, hc, ho⟩ : ∃ k v b, Op.put key value a = .put k v b ∧
        h.internalHashmapContains k = .ok false ∧ h.Overgrown := by
      unfold MeetsStep at hno
      push Not at hno
      exact hno
    cases he
    rw [hcontains] at hc
    exact ⟨Option.isNone_iff_eq_none.mp (Option.isSome_eq_false_iff.mp (Except.ok.inj hc)), ho⟩
  · rintro ⟨hn, ho⟩ hmeets
    refine hmeets key value a rfl ?_ ho
    rw [hcontains, hn]
    rfl

theorem Valid.step (hv : Valid h es) (op : Op) :
    (¬ h.MeetsStep op → ∃ f, h.step op = .error f) ∧
      (h.MeetsStep op → ∃ a h' es', h.step op = .ok (a, h') ∧
        Records h.hashOps h.type es op a es' ∧ Valid h' es' ∧ SameKind h h') := by
  have hmeets : (∀ key value a, op ≠ .put key value a) → h.MeetsStep op :=
    fun hne key value a he => absurd he (hne key value a)
  cases op with
  | put key value a =>
    have hbad := hv.not_meetsStep_put key value a
    obtain ⟨hpresent, habsent⟩ := hv.put_cases key value a
    rcases hcase : lookup h.hashOps es key with - | v
    · refine ⟨fun hno => ⟨_, (habsent hcase).1 (hbad.mp hno).2⟩, fun hmeets => ?_⟩
      obtain ⟨r, hr, hs⟩ := (habsent hcase).2 fun ho => hbad.mpr ⟨hcase, ho⟩ hmeets
      obtain ⟨es', hrec, hv', hk⟩ := hv.stored hcase hs
      exact ⟨_, _, es', hr, hrec, hv', hk⟩
    · refine ⟨fun hno => ?_, fun _ => ⟨_, h, es, hpresent v hcase, ?_, hv, rfl, rfl⟩⟩
      · rw [(hbad.mp hno).1] at hcase
        exact absurd hcase (Option.some_ne_none v).symm
      · exact .present key value a v hcase
  | remove key =>
    refine ⟨fun hno => absurd (hmeets fun _ _ _ => Op.noConfusion) hno, fun _ => ?_⟩
    obtain ⟨h', hrun, s, hv'⟩ := hv.remove key
    refine ⟨_, h', _, ?_, .remove key, hv', s.hashOps, s.type⟩
    simp only [HashmapBase.step, hrun, bind, Except.bind, pure, Except.pure]
  | get key =>
    refine ⟨fun hno => absurd (hmeets fun _ _ _ => Op.noConfusion) hno, fun _ => ?_⟩
    refine ⟨_, h, es, ?_, .get key, hv, rfl, rfl⟩
    simp only [HashmapBase.step, hv.get key, bind, Except.bind, pure, Except.pure]
  | contains key =>
    refine ⟨fun hno => absurd (hmeets fun _ _ _ => Op.noConfusion) hno, fun _ => ?_⟩
    refine ⟨_, h, es, ?_, .contains key, hv, rfl, rfl⟩
    simp only [HashmapBase.step, hv.contains key, bind, Except.bind, pure, Except.pure]
  | clear =>
    refine ⟨fun hno => absurd (hmeets fun _ _ _ => Op.noConfusion) hno, fun _ => ?_⟩
    exact ⟨_, _, [], rfl, .clear, .clear, rfl, rfl⟩

def Meets : HashmapBase → List Op → Prop
  | _, [] => True
  | h, op :: l => h.MeetsStep op ∧ ∀ a h', h.step op = .ok (a, h') → Meets h' l

section

variable {σ : Type} {I Q : HashmapBase → σ → Prop} {R : σ → Op → Answer → σ → Prop} {s : σ}

/-- All calls of a run return and do to the table what `R` does to its abstraction; the law `Q` holds
between the calls. -/
def Follows (Q : HashmapBase → σ → Prop) (R : σ → Op → Answer → σ → Prop) :
    HashmapBase → σ → List Op → Prop
  | h, s, [] => Q h s
  | h, s, op :: l => Q h s ∧ ∃ a h' s', h.step op = .ok (a, h') ∧ R s op a s' ∧ Follows Q R h' s' l

theorem Follows.law {l : List Op} (hf : Follows Q R h s l) : Q h s := by
  cases l with
  | nil => exact hf
  | cons op l => exact hf.1

theorem follows_iff (hI : ∀ h s, I h s → Q h s)
    (hstep : ∀ h s op, I h s → (¬ h.MeetsStep op → ∃ f, h.step op = .error f) ∧
      (h.MeetsStep op → ∃ a h' s', h.step op = .ok (a, h') ∧ R s op a s' ∧ I h' s')) :
    ∀ {l : List Op} {h : HashmapBase} {s : σ}, I h s → (Follows Q R h s l ↔ Meets h l) := by
  have hmeets : ∀ {l : List Op} {h : HashmapBase} {s t : σ}, I h t → Follows Q R h s l →
      Meets h l := by
    intro l
    induction l with
    | nil => exact fun _ _ => trivial
    | cons op l ih =>
      rintro h s t hi ⟨-, a, h', s', hrun, -, hrest⟩
      obtain ⟨hbad, hgood⟩ := hstep h t op hi
      have hm : h.MeetsStep op := by
        by_contra hno
        obtain ⟨f, hf⟩ := hbad hno
        exact nomatch hf.symm.trans hrun
      obtain ⟨b, g, t', hrun', -, hi'⟩ := hgood hm
      refine ⟨hm, fun c k hk => ?_⟩
      obtain ⟨rfl, rfl⟩ := Prod.ext_iff.mp (Except.ok.inj (hk.symm.trans hrun))
      obtain ⟨rfl, rfl⟩ := Prod.ext_iff.mp (Except.ok.inj (hrun'.symm.trans hk))
      exact ih hi' hrest
  intro l
  induction l with
  | nil => exact fun hi => iff_of_true (hI _ _ hi) trivial
  | cons op l ih =>
    intro h s hi
    refine ⟨hmeets hi, fun ⟨hm, hrest⟩ => ?_⟩
    obtain ⟨a, h', s', hrun, hr, hi'⟩ := (hstep h s op hi).2 hm
    exact ⟨hI h s hi, a, h', s', hrun, hr, (ih hi').mpr (hrest a h' hrun)⟩

end

structure Keeps (ops : HashOps) (type : HashmapType) (h : HashmapBase) (es : List (Ptr × Ptr)) :
    Prop where
  hashOps : h.hashOps = ops
  type : h.type = type
  valid : Valid h es

theorem Keeps.new (ops : HashOps) (type : HashmapType) (shared : HashKey) :
    Keeps ops type (hashmapBaseNew ops type shared) [] := ⟨rfl, rfl, .new ops type shared⟩

theorem Keeps.step (hk : Keeps ops type h es) (op : Op) :
    (¬ h.MeetsStep op → ∃ f, h.step op = .error f) ∧
      (h.MeetsStep op → ∃ a h' es', h.step op = .ok (a, h') ∧ Records ops type es op a es' ∧
        Keeps ops type h' es') := by
  obtain ⟨rfl, rfl, hv⟩ := hk
  refine (hv.step op).imp_right fun hgood hm => ?_
  obtain ⟨a, h', es', hrun, hrec, hv', hkind⟩ := hgood hm
  exact ⟨a, h', es', hrun, hrec, hkind.hashOps, hkind.type, hv'⟩

def trivialOps : HashOps where
  hash _ p := p
  compare a b := (a : Int) - b
  compare_self := by omega
  compare_symm := by omega
  compare_trans := by omega
  hash_eq _ a b hab := by omega

/-- New keys from `n` on, with memory for each. -/
def puts (n count : Nat) : List Op := (List.range' n count).map fun key => .put key 0 ⟨true, []⟩

theorem Valid.size_le (hv : Valid h es) : es.length * (h.type.entrySize + 1) ≤ 2 ^ 31 := by
  obtain ⟨order, hf⟩ := hv.filling
  exact (Nat.mul_le_mul_right _ hf.length_le).trans hv.bounded

theorem puts_le : ∀ {count n : Nat} {h : HashmapBase} {es : List (Ptr × Ptr)},
    Follows (Keeps trivialOps type) (Records trivialOps type) h es (puts (n + 1) count) →
    es.length = n → (∀ e ∈ es, e.1 ≤ n) → (n + count) * (type.entrySize + 1) ≤ 2 ^ 31
  | 0, n, h, es, hf, hn, _ => by
    have hle := hf.law.valid.size_le
    rwa [hn, hf.law.type] at hle
  | count + 1, n, h, es, hf, hn, hkeys => by
    have hle : n * (type.entrySize + 1) ≤ 2 ^ 31 := by
      rw [← hn, ← hf.law.type]
      exact hf.law.valid.size_le
    have hnone : lookup trivialOps es (n + 1) = none := by
      refine (lookup_eq_none _).mpr fun e he hc => ?_
      have hcmp : ((e.1 : Nat) : Int) - ((n + 1 : Nat) : Int) = 0 := hc
      have hkey : e.1 = n + 1 := Int.natCast_inj.mp (Int.sub_eq_zero.mp hcmp)
      have hle := hkeys e he
      rw [hkey] at hle
      exact Nat.not_succ_le_self n hle
    obtain ⟨-, a, h', es', -, hrec, hrest⟩ := hf
    cases hrec with
    | present _ _ _ v hv => exact absurd (hnone.symm.trans hv) (Option.some_ne_none v).symm
    | refused _ _ _ _ hno =>
      have hbig := hno.resolve_left Bool.noConfusion
      rw [hn] at hbig
      unfold bucketsWanted invKeepFree uint32Max at hbig
      cases type <;> simp only [HashmapType.entrySize] at hbig hle <;> omega
    | added _ _ _ hv =>
      refine (puts_le hrest ?_ fun e he => ?_).trans' ?_
      · rw [List.length_append, hn]
        rfl
      · rcases List.mem_append.mp he with he | he
        · exact (hkeys e he).trans (Nat.le_succ n)
        · rw [List.mem_singleton.mp he]
      · rw [Nat.add_right_comm, Nat.add_assoc]

theorem not_meets_puts (type : HashmapType) :
    ¬ Meets (hashmapBaseNew trivialOps type []) (puts 1 (2 ^ 28)) := fun hm => by
  have hf := (follows_iff (I := Keeps trivialOps type) (fun _ _ hk => hk)
    (fun _ _ op hk => hk.step op) (Keeps.new trivialOps type [])).mpr hm
  have hle := puts_le (n := 0) hf rfl fun e he => absurd he List.not_mem_nil
  cases type <;> simp only [HashmapType.entrySize] at hle <;> omega

/-- What a call does to a finite map, and its answer. A put that lacks memory does nothing. -/
inductive Does (type : HashmapType) (m : FiniteMap ops) : Op → Answer → FiniteMap ops → Prop
  | present (key value : Ptr) (a : Resizing) (v : Ptr) (hv : m.lookup (ops.key key) = some v) :
      Does type m (.put key value a)
        (.code (if type = .set ∨ v = value then .ok 0 else .error .eexist)) m
  | added (key value : Ptr) (a : Resizing) (hv : m.lookup (ops.key key) = none) :
      Does type m (.put key value a) (.code (.ok 1))
        (m.insert (ops.key key) (if type = .set then key else value))
  | refused (key value : Ptr) (a : Resizing) (hv : m.lookup (ops.key key) = none)
      (hno : a.granted = false ∨
        uint32Max / (type.entrySize + 1) < bucketsWanted (m.keys.card + 1)) :
      Does type m (.put key value a) (.code (.error .enomem)) m
  | remove (key : Ptr) : Does type m (.remove key)
      (.data ((m.lookup (ops.key key)).getD 0)) (m.erase (ops.key key))
  | get (key : Ptr) : Does type m (.get key) (.data ((m.lookup (ops.key key)).getD 0)) m
  | contains (key : Ptr) :
      Does type m (.contains key) (.found (m.lookup (ops.key key)).isSome) m
  | clear : Does type m .clear .done ∅

/-- The table is in order and stands for the map. -/
structure Law (type : HashmapType) (h : HashmapBase) (m : FiniteMap ops) : Prop where
  hashOps : h.hashOps = ops
  type : h.type = type
  robin : h.Robin
  valid : ∃ es, Valid h es ∧ toMap ops es = m
  nEntries : h.nEntries = m.keys.card

theorem Law.of_valid (hv : Valid h es) (ho : h.hashOps = ops) (ht : h.type = type) :
    Law type h (toMap ops es) := by
  obtain ⟨order, hf⟩ := hv.filling
  refine ⟨ho, ht, hf.robin, ⟨es, hv, rfl⟩, ?_⟩
  rw [hv.nEntries, card_toMap (ho ▸ hv.distinct)]

theorem Records.does {op : Op} {a : Answer} {es' : List (Ptr × Ptr)}
    (hd : es.Pairwise fun a b => ops.compare a.1 b.1 ≠ 0) (hr : Records ops type es op a es') :
    Does type (toMap ops es) op a (toMap ops es') := by
  have hlook := @lookup_toMap ops es
  cases hr with
  | present key value a v hv => exact .present key value a v ((hlook key).trans hv)
  | added key value a hv =>
    rw [toMap_append _ hv]
    exact .added key value a ((hlook key).trans hv)
  | refused key value a hv hno =>
    refine .refused key value a ((hlook key).trans hv) ?_
    rwa [card_toMap hd]
  | remove key =>
    rw [toMap_without, ← hlook key]
    exact .remove key
  | get key =>
    rw [← hlook key]
    exact .get key
  | contains key =>
    rw [← hlook key]
    exact .contains key
  | clear => exact .clear

theorem Law.step (hl : Law type h m) (op : Op) :
    (¬ h.MeetsStep op → ∃ f, h.step op = .error f) ∧
      (h.MeetsStep op → ∃ a h' m', h.step op = .ok (a, h') ∧ Does type m op a m' ∧
        Law type h' m') := by
  obtain ⟨es, hv, rfl⟩ := hl.valid
  obtain ⟨hbad, hgood⟩ := hv.step op
  refine ⟨hbad, fun hmeets => ?_⟩
  obtain ⟨a, h', es', hstep, hrec, hv', hk⟩ := hgood hmeets
  have hd := hv.distinct
  rw [hl.hashOps] at hrec hd
  rw [hl.type] at hrec
  exact ⟨a, h', _, hstep, hrec.does hd,
    .of_valid hv' (hk.hashOps.trans hl.hashOps) (hk.type.trans hl.type)⟩

/-- A table does what a finite map does, in every run and under every hash function, if and only if
no new key is put that needs more storage than the shift of `resize_buckets` can name. -/
theorem follows_finite_map (ops : HashOps) (type : HashmapType) (shared : HashKey) (l : List Op) :
    Follows (Law type) (Does type) (hashmapBaseNew ops type shared) (∅ : FiniteMap ops) l ↔
      Meets (hashmapBaseNew ops type shared) l :=
  follows_iff (I := Law type) (fun _ _ hl => hl) (fun _ _ op hl => hl.step op)
    (Law.of_valid (Valid.new ops type shared) rfl rfl)

theorem not_follows_finite_map : ¬ Follows (Law .plain) (Does .plain)
    (hashmapBaseNew trivialOps .plain []) (∅ : FiniteMap trivialOps) (puts 1 (2 ^ 28)) := fun hf =>
  not_meets_puts .plain ((follows_iff (I := Law .plain) (fun _ _ hl => hl)
    (fun _ _ op hl => hl.step op)
    (Law.of_valid (Valid.new trivialOps .plain []) rfl rfl)).mp hf)

end HashmapBase
end Basu
