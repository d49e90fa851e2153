import Basu.Type

/-! Signatures (`bus-signature.c`). `signatureElementLength` scans one complete type; the grammar it
scans is the printing function `Ty.sig`, and the two are related in both directions. -/

namespace Basu
open Lib

def maxDepth : Nat := 32

mutual

/-- `signature_element_length_internal`: the length of the complete type `s` starts with. The
first argument bounds the recursion; twice the length of the string is enough. -/
def signatureElementLengthInternal : Nat → Str → Bool → Nat → Nat → Option Nat
  | 0, _, _, _, _ => none
  | fuel + 1, s, allowDictEntry, arrayDepth, structDepth =>
    let c := charAt s 0
    if busTypeIsBasic c || c = sdBusTypeVariant then some 1
    else if c = sdBusTypeArray then
      if maxDepth ≤ arrayDepth then none
      else (signatureElementLengthInternal fuel (s.drop 1) true (arrayDepth + 1)
        structDepth).map (· + 1)
    else if c = sdBusTypeStructBegin then
      if maxDepth ≤ structDepth then none
      else (structMembersLength fuel (s.drop 1) arrayDepth (structDepth + 1)).bind fun l =>
        -- an empty pair of parentheses is not a type
        if l = 0 then none else some (l + 2)
    else if c = sdBusTypeDictEntryBegin ∧ allowDictEntry then
      if maxDepth ≤ structDepth then none
      else (dictMembersLength fuel (s.drop 1) arrayDepth (structDepth + 1) 0).map (· + 2)
    else none

def structMembersLength : Nat → Str → Nat → Nat → Option Nat
  | 0, _, _, _ => none
  | fuel + 1, p, arrayDepth, structDepth =>
    if charAt p 0 = sdBusTypeStructEnd then some 0
    else (signatureElementLengthInternal fuel p false arrayDepth structDepth).bind fun t =>
      (structMembersLength fuel (p.drop t) arrayDepth structDepth).map (t + ·)

def dictMembersLength : Nat → Str → Nat → Nat → Nat → Option Nat
  | 0, _, _, _, _ => none
  | fuel + 1, p, arrayDepth, structDepth, n =>
    if charAt p 0 = sdBusTypeDictEntryEnd then (if n = 2 then some 0 else none)
    else if n = 0 ∧ busTypeIsBasic (charAt p 0) = false then none
    else (signatureElementLengthInternal fuel p false arrayDepth structDepth).bind fun t =>
      (dictMembersLength fuel (p.drop t) arrayDepth structDepth (n + 1)).map (t + ·)

end

def scanFuel (s : Str) : Nat := 2 * s.length + 2

def signatureElementLength (s : Str) : Option Nat :=
  signatureElementLengthInternal (scanFuel s) s true 0 0

def signatureIsSingle (s : Str) (allowDictEntry : Bool) : Bool :=
  match signatureElementLengthInternal (scanFuel s) s allowDictEntry 0 0 with
  | none => false
  | some t => charAt s t = 0

def signatureIsPair (s : Str) : Bool :=
  busTypeIsBasic (charAt s 0) && signatureIsSingle (s.drop 1) false

def signatureIsValidLoop : Nat → Str → Bool → Bool
  | 0, _, _ => false
  | fuel + 1, p, allowDictEntry =>
    if charAt p 0 = 0 then true
    else match signatureElementLengthInternal (scanFuel p) p allowDictEntry 0 0 with
      | none => false
      | some t => signatureIsValidLoop fuel (p.drop t) allowDictEntry

def signatureIsValid (s : Str) (allowDictEntry : Bool) : Bool :=
  signatureIsValidLoop (s.length + 1) s allowDictEntry && s.length ≤ 255

mutual

def Ty.sig : Ty → Str
  | .basic b => [b.code]
  | .variant => [sdBusTypeVariant]
  | .array t => sdBusTypeArray :: t.sig
  | .struct ts => sdBusTypeStructBegin :: (Ty.sigs ts ++ [sdBusTypeStructEnd])
  | .dictEntry k v => sdBusTypeDictEntryBegin :: k.code :: (v.sig ++ [sdBusTypeDictEntryEnd])

def Ty.sigs : List Ty → Str
  | [] => []
  | t :: ts => t.sig ++ Ty.sigs ts

end

mutual

/-- The limits the scanner enforces: depths counted from the given roots, no empty structure,
dictionary entries only where the caller allows them. -/
def Ty.Fits : Ty → Bool → Nat → Nat → Prop
  | .basic _, _, _, _ => True
  | .variant, _, _, _ => True
  | .array t, _, a, s => a < maxDepth ∧ t.Fits true (a + 1) s
  | .struct ts, _, a, s => s < maxDepth ∧ ts ≠ [] ∧ Ty.AllFit ts a (s + 1)
  | .dictEntry _ v, allow, a, s => allow = true ∧ s < maxDepth ∧ v.Fits false a (s + 1)

def Ty.AllFit : List Ty → Nat → Nat → Prop
  | [], _, _ => True
  | t :: ts, a, s => t.Fits false a s ∧ Ty.AllFit ts a s

end

theorem Ty.sigs_append (ts us : List Ty) : Ty.sigs (ts ++ us) = Ty.sigs ts ++ Ty.sigs us := by
  induction ts with
  | nil => rfl
  | cons t ts ih => simp only [List.cons_append, Ty.sigs, ih, List.append_assoc]

theorem Ty.sigs_singleton (t : Ty) : Ty.sigs [t] = t.sig := by simp [Ty.sigs]

def Ty.head : Ty → UInt8
  | .basic b => b.code
  | .variant => sdBusTypeVariant
  | .array _ => sdBusTypeArray
  | .struct _ => sdBusTypeStructBegin
  | .dictEntry _ _ => sdBusTypeDictEntryBegin

theorem Ty.sig_eq_cons (t : Ty) : ∃ s, t.sig = t.head :: s := by
  cases t <;> exact ⟨_, by rw [Ty.sig]; rfl⟩

theorem Ty.sig_pos (t : Ty) : 0 < t.sig.length := by
  obtain ⟨s, h⟩ := t.sig_eq_cons
  simp [h]

theorem Ty.charAt_sig_append (t : Ty) (r : Str) : charAt (t.sig ++ r) 0 = t.head := by
  obtain ⟨s, h⟩ := t.sig_eq_cons
  simp [h, charAt]

theorem Ty.head_ne {t : Ty} {c : UInt8} (hb : busTypeIsBasic c = false)
    (hc : c ∉ [sdBusTypeVariant, sdBusTypeArray, sdBusTypeStructBegin,
      sdBusTypeDictEntryBegin]) : t.head ≠ c := by
  simp only [List.mem_cons, List.not_mem_nil, or_false, not_or] at hc
  cases t with
  | basic b => exact Basic.code_ne hb
  | variant => exact fun h => hc.1 h.symm
  | array t => exact fun h => hc.2.1 h.symm
  | struct ts => exact fun h => hc.2.2.1 h.symm
  | dictEntry k v => exact fun h => hc.2.2.2 h.symm

theorem Ty.head_ne_zero (t : Ty) : t.head ≠ 0 := Ty.head_ne (by decide) (by decide)

theorem Ty.head_ne_structEnd (t : Ty) : t.head ≠ sdBusTypeStructEnd :=
  Ty.head_ne (by decide) (by decide)

theorem Ty.head_ne_dictEnd (t : Ty) : t.head ≠ sdBusTypeDictEntryEnd :=
  Ty.head_ne (by decide) (by decide)

theorem busTypeGetAlignment_head (t : Ty) : busTypeGetAlignment t.head = some t.align := by
  cases t with
  | basic b => exact busTypeGetAlignment_code b
  | _ => rfl

theorem Basic.code_ne_variant (b : Basic) : b.code ≠ sdBusTypeVariant := Basic.code_ne (by decide)

theorem Basic.code_ne_array (b : Basic) : b.code ≠ sdBusTypeArray := Basic.code_ne (by decide)

theorem Basic.code_ne_struct (b : Basic) : b.code ≠ sdBusTypeStructBegin :=
  Basic.code_ne (by decide)

theorem Basic.code_ne_dict (b : Basic) : b.code ≠ sdBusTypeDictEntryBegin :=
  Basic.code_ne (by decide)

theorem Ty.eq_basic_of_head {u : Ty} {b : Basic} (h : u.head = b.code) : u = .basic b := by
  cases u with
  | basic b' => exact congrArg Ty.basic (Basic.code_injective h)
  | variant => exact absurd h.symm b.code_ne_variant
  | array _ => exact absurd h.symm b.code_ne_array
  | struct _ => exact absurd h.symm b.code_ne_struct
  | dictEntry _ _ => exact absurd h.symm b.code_ne_dict

theorem Ty.head_eq_of_sig_append {t u : Ty} {r q : Str} (h : t.sig ++ r = u.sig ++ q) :
    t.head = u.head := by
  rw [← Ty.charAt_sig_append t r, h, Ty.charAt_sig_append]

mutual

theorem Ty.sig_append_inj : ∀ (t u : Ty) (r q : Str), t.sig ++ r = u.sig ++ q → t = u ∧ r = q
  | .basic b, u, r, q, h => by
    have hh := Ty.head_eq_of_sig_append h
    cases u with
    | basic b' =>
      have hb : b = b' := Basic.code_injective hh
      subst hb
      exact ⟨rfl, List.append_cancel_left h⟩
    | variant => exact absurd hh b.code_ne_variant
    | array _ => exact absurd hh b.code_ne_array
    | struct _ => exact absurd hh b.code_ne_struct
    | dictEntry _ _ => exact absurd hh b.code_ne_dict
  | .variant, u, r, q, h => by
    have hh := Ty.head_eq_of_sig_append h
    cases u with
    | basic b' => exact absurd hh.symm b'.code_ne_variant
    | variant => exact ⟨rfl, List.append_cancel_left h⟩
    | _ => exact absurd hh (by rw [Ty.head, Ty.head]; decide)
  | .array t, u, r, q, h => by
    have hh := Ty.head_eq_of_sig_append h
    cases u with
    | basic b' => exact absurd hh.symm b'.code_ne_array
    | array u =>
      rw [Ty.sig, Ty.sig, List.cons_append, List.cons_append] at h
      obtain ⟨e, hr⟩ := Ty.sig_append_inj t u r q (List.cons.inj h).2
      exact ⟨congrArg Ty.array e, hr⟩
    | _ => exact absurd hh (by rw [Ty.head, Ty.head]; decide)
  | .struct ts, u, r, q, h => by
    have hh := Ty.head_eq_of_sig_append h
    cases u with
    | basic b' => exact absurd hh.symm b'.code_ne_struct
    | struct us =>
      rw [Ty.sig, Ty.sig, List.cons_append, List.cons_append, List.append_assoc,
        List.append_assoc] at h
      obtain ⟨e, hr⟩ := Ty.sigs_append_inj ts us r q _ Ty.head_ne_structEnd (List.cons.inj h).2
      exact ⟨congrArg Ty.struct e, hr⟩
    | _ => exact absurd hh (by rw [Ty.head, Ty.head]; decide)
  | .dictEntry k v, u, r, q, h => by
    have hh := Ty.head_eq_of_sig_append h
    cases u with
    | basic b' => exact absurd hh.symm b'.code_ne_dict
    | dictEntry k' v' =>
      rw [Ty.sig, Ty.sig] at h
      simp only [List.cons_append, List.append_assoc, List.cons.injEq, true_and] at h
      obtain ⟨hk, hv⟩ := h
      obtain ⟨e, hr⟩ := Ty.sig_append_inj v v' _ _ hv
      rw [Basic.code_injective hk, e]
      exact ⟨rfl, (List.cons.inj hr).2⟩
    | _ => exact absurd hh (by rw [Ty.head, Ty.head]; decide)

theorem Ty.sigs_append_inj : ∀ (ts us : List Ty) (r q : Str) (c : UInt8),
    (∀ t : Ty, t.head ≠ c) → Ty.sigs ts ++ ([c] ++ r) = Ty.sigs us ++ ([c] ++ q) →
    ts = us ∧ r = q
  | [], [], r, q, c, _, h => ⟨rfl, List.append_cancel_left h⟩
  | [], u :: us, r, q, c, hc, h => by
    have h0 := congrArg (charAt · 0) h
    rw [Ty.sigs, Ty.sigs, List.append_assoc, Ty.charAt_sig_append] at h0
    exact absurd h0.symm (hc u)
  | t :: ts, [], r, q, c, hc, h => by
    have h0 := congrArg (charAt · 0) h
    rw [Ty.sigs, Ty.sigs, List.append_assoc, Ty.charAt_sig_append] at h0
    exact absurd h0 (hc t)
  | t :: ts, u :: us, r, q, c, hc, h => by
    rw [Ty.sigs, Ty.sigs, List.append_assoc, List.append_assoc] at h
    obtain ⟨rfl, h'⟩ := Ty.sig_append_inj t u _ _ h
    obtain ⟨rfl, rfl⟩ := Ty.sigs_append_inj ts us r q c hc h'
    exact ⟨rfl, rfl⟩

end

theorem Ty.sig_injective : Function.Injective Ty.sig := by
  intro t u h
  exact (Ty.sig_append_inj t u [] [] (by rw [h])).1

theorem Ty.sigs_injective : Function.Injective Ty.sigs := by
  intro ts us h
  refine (Ty.sigs_append_inj ts us [] [] 0 Ty.head_ne_zero ?_).1
  rw [h]

theorem Ty.sigs_eq_sig_append {ts : List Ty} {t : Ty} {r : Str} (h : Ty.sigs ts = t.sig ++ r) :
    ∃ us, ts = t :: us ∧ r = Ty.sigs us := by
  cases ts with
  | nil =>
    have := congrArg List.length h
    have := t.sig_pos
    simp only [Ty.sigs, List.length_nil, List.length_append] at *
    omega
  | cons u us =>
    rw [Ty.sigs] at h
    obtain ⟨rfl, rfl⟩ := Ty.sig_append_inj u t _ _ h
    exact ⟨us, rfl, rfl⟩

mutual

theorem Ty.zero_notMem_sig : ∀ t : Ty, (0 : UInt8) ∉ t.sig
  | .basic b => by simpa [Ty.sig] using b.code_ne_zero.symm
  | .variant => by simp [Ty.sig, sdBusTypeVariant]
  | .array t => by simpa [Ty.sig, sdBusTypeArray] using Ty.zero_notMem_sig t
  | .struct ts => by
    simpa [Ty.sig, sdBusTypeStructBegin, sdBusTypeStructEnd] using Ty.zero_notMem_sigs ts
  | .dictEntry k v => by
    simpa [Ty.sig, sdBusTypeDictEntryBegin, sdBusTypeDictEntryEnd] using
      ⟨k.code_ne_zero.symm, Ty.zero_notMem_sig v⟩

theorem Ty.zero_notMem_sigs : ∀ ts : List Ty, (0 : UInt8) ∉ Ty.sigs ts
  | [] => by simp [Ty.sigs]
  | t :: ts => by
    simpa [Ty.sigs] using ⟨Ty.zero_notMem_sig t, Ty.zero_notMem_sigs ts⟩

end

/-! ## The scanner accepts the grammar -/

theorem eq_cons_of_charAt {s : Str} {c : UInt8} (hc : c ≠ 0) (h : charAt s 0 = c) :
    s = c :: s.drop 1 := by
  cases s with
  | nil => exact absurd h.symm hc
  | cons d s => rw [← h]; rfl

theorem scan_array (fuel : Nat) (s : Str) (allow : Bool) (a d : Nat) :
    signatureElementLengthInternal (fuel + 1) (sdBusTypeArray :: s) allow a d =
      if maxDepth ≤ a then none
      else (signatureElementLengthInternal fuel s true (a + 1) d).map (· + 1) := by
  rw [signatureElementLengthInternal]
  rfl

theorem scan_struct (fuel : Nat) (s : Str) (allow : Bool) (a d : Nat) :
    signatureElementLengthInternal (fuel + 1) (sdBusTypeStructBegin :: s) allow a d =
      if maxDepth ≤ d then none
      else (structMembersLength fuel s a (d + 1)).bind fun l =>
        if l = 0 then none else some (l + 2) := by
  rw [signatureElementLengthInternal]
  rfl

theorem scan_dict (fuel : Nat) (s : Str) (a d : Nat) :
    signatureElementLengthInternal (fuel + 1) (sdBusTypeDictEntryBegin :: s) true a d =
      if maxDepth ≤ d then none
      else (dictMembersLength fuel s a (d + 1) 0).map (· + 2) := by
  rw [signatureElementLengthInternal]
  rfl

theorem scan_basic (fuel : Nat) (b : Basic) (s : Str) (allow : Bool) (a d : Nat) :
    signatureElementLengthInternal (fuel + 1) (b.code :: s) allow a d = some 1 := by
  rw [signatureElementLengthInternal]
  simp [charAt_cons_zero, busTypeIsBasic_code]

theorem scan_variant (fuel : Nat) (s : Str) (allow : Bool) (a d : Nat) :
    signatureElementLengthInternal (fuel + 1) (sdBusTypeVariant :: s) allow a d = some 1 := by
  rw [signatureElementLengthInternal]
  simp [charAt_cons_zero]

theorem Ty.sigs_pos {ts : List Ty} (h : ts ≠ []) : 0 < (Ty.sigs ts).length := by
  cases ts with
  | nil => exact absurd rfl h
  | cons t ts =>
    have := t.sig_pos
    rw [Ty.sigs, List.length_append]
    omega

theorem Ty.sig_length_le {ts : List Ty} {t : Ty} (h : t ∈ ts) :
    t.sig.length ≤ (Ty.sigs ts).length := by
  induction ts with
  | nil => exact absurd h (by simp)
  | cons u us ih =>
    rw [Ty.sigs, List.length_append]
    rcases List.mem_cons.mp h with rfl | h
    · omega
    · have := ih h
      omega

mutual

theorem scan_sig : ∀ (t : Ty) (fuel : Nat) (r : Str) (allow : Bool) (a d : Nat),
    t.Fits allow a d → 2 * t.sig.length ≤ fuel →
    signatureElementLengthInternal fuel (t.sig ++ r) allow a d = some t.sig.length
  | t, 0, r, allow, a, d, _, hf => by
    have := t.sig_pos
    omega
  | .basic b, fuel + 1, r, allow, a, d, _, _ => by
    rw [Ty.sig]
    exact scan_basic fuel b r allow a d
  | .variant, fuel + 1, r, allow, a, d, _, _ => by
    rw [Ty.sig]
    exact scan_variant fuel r allow a d
  | .array t, fuel + 1, r, allow, a, d, h, hf => by
    rw [Ty.Fits] at h
    rw [Ty.sig, List.length_cons] at hf
    rw [Ty.sig, List.cons_append, scan_array, if_neg (by omega),
      scan_sig t fuel r true (a + 1) d h.2 (by omega)]
    rfl
  | .struct ts, fuel + 1, r, allow, a, d, h, hf => by
    rw [Ty.Fits] at h
    obtain ⟨hd, hne, hall⟩ := h
    have hpos := Ty.sigs_pos hne
    rw [Ty.sig, List.length_cons, List.length_append, List.length_singleton] at hf
    rw [Ty.sig, List.cons_append, scan_struct, if_neg (by omega), List.append_assoc,
      scan_members ts fuel r a (d + 1) hall (by omega), Option.bind_some, if_neg (by omega)]
    simp
  | .dictEntry k v, fuel + 1, r, allow, a, d, h, hf => by
    rw [Ty.Fits] at h
    obtain ⟨rfl, hd, hv⟩ := h
    simp only [Ty.sig, List.length_cons, List.length_append, List.length_nil] at hf
    have hvpos := v.sig_pos
    -- the loop runs three times: the key, the value, the closing brace
    obtain ⟨f, rfl⟩ : ∃ f, fuel = f + 3 := ⟨fuel - 3, by omega⟩
    have hval := scan_sig v (f + 1) (sdBusTypeDictEntryEnd :: r) false a (d + 1) hv (by omega)
    have hkey : k.code ≠ sdBusTypeDictEntryEnd := Basic.code_ne (by decide)
    rw [Ty.sig, List.cons_append, scan_dict, if_neg (by omega), List.cons_append,
      List.append_assoc, dictMembersLength, charAt_cons_zero, if_neg hkey, busTypeIsBasic_code,
      if_neg (by simp), scan_basic, Option.bind_some, List.drop_one, List.tail_cons,
      dictMembersLength, Ty.charAt_sig_append, if_neg v.head_ne_dictEnd, if_neg (by omega),
      List.singleton_append, hval, Option.bind_some, List.drop_left, dictMembersLength,
      charAt_cons_zero, if_pos rfl, if_pos rfl]
    simp
    omega

theorem scan_members : ∀ (ts : List Ty) (fuel : Nat) (r : Str) (a d : Nat),
    Ty.AllFit ts a d → 2 * (Ty.sigs ts).length + 1 ≤ fuel →
    structMembersLength fuel (Ty.sigs ts ++ ([sdBusTypeStructEnd] ++ r)) a d =
      some (Ty.sigs ts).length
  | _, 0, _, _, _, _, hf => by omega
  | [], fuel + 1, r, a, d, _, _ => by
    rw [structMembersLength]
    rfl
  | t :: ts, fuel + 1, r, a, d, h, hf => by
    rw [Ty.AllFit] at h
    have hpos := t.sig_pos
    rw [Ty.sigs, List.length_append] at hf
    rw [structMembersLength, Ty.sigs, List.append_assoc, Ty.charAt_sig_append,
      if_neg t.head_ne_structEnd, scan_sig t fuel _ false a d h.1 (by omega), Option.bind_some,
      List.drop_left, scan_members ts fuel r a d h.2 (by omega), List.length_append]
    rfl

end

/-! ## The scanner accepts nothing else -/

def Scanned (s : Str) (n : Nat) (P : Ty → Prop) : Prop :=
  ∃ t rest, s = t.sig ++ rest ∧ n = t.sig.length ∧ P t

theorem Scanned.drop {s : Str} {n : Nat} {P : Ty → Prop} (h : Scanned s n P) :
    ∃ t, s = t.sig ++ s.drop n ∧ n = t.sig.length ∧ P t := by
  obtain ⟨t, rest, rfl, rfl, hP⟩ := h
  exact ⟨t, by rw [List.drop_left], rfl, hP⟩

theorem scan_sound (fuel : Nat) :
    (∀ s allow a d n, signatureElementLengthInternal fuel s allow a d = some n →
      Scanned s n (·.Fits allow a d)) ∧
    (∀ s a d n, structMembersLength fuel s a d = some n →
      ∃ ts rest, s = Ty.sigs ts ++ ([sdBusTypeStructEnd] ++ rest) ∧ n = (Ty.sigs ts).length ∧
        Ty.AllFit ts a d) ∧
    (∀ s a d k n, dictMembersLength fuel s a d k = some n →
      ∃ ts rest, s = Ty.sigs ts ++ ([sdBusTypeDictEntryEnd] ++ rest) ∧
        n = (Ty.sigs ts).length ∧ Ty.AllFit ts a d ∧ k + ts.length = 2 ∧
        (k = 0 → ∃ b us, ts = .basic b :: us)) := by
  induction fuel with
  | zero =>
    refine ⟨fun s allow a d n h => ?_, fun s a d n h => ?_, fun s a d k n h => ?_⟩
    · exact absurd h (by rw [signatureElementLengthInternal]; simp)
    · exact absurd h (by rw [structMembersLength]; simp)
    · exact absurd h (by rw [dictMembersLength]; simp)
  | succ fuel ih =>
    obtain ⟨ihe, ihs, ihd⟩ := ih
    refine ⟨fun s allow a d n h => ?_, fun s a d n h => ?_, fun s a d k n h => ?_⟩
    · rw [signatureElementLengthInternal] at h
      split_ifs at h with h1 h2 h3 h4 h5 h6 h7
      · -- a basic type or a variant
        simp only [Option.some.injEq] at h
        simp only [Bool.or_eq_true, decide_eq_true_eq] at h1
        rcases h1 with hb | hv
        · obtain ⟨b, hb'⟩ := exists_basic_of_code hb
          have hs := eq_cons_of_charAt b.code_ne_zero hb'.symm
          exact ⟨.basic b, s.drop 1, by rw [Ty.sig]; exact hs, by rw [Ty.sig]; exact h.symm,
            by trivial⟩
        · have hs := eq_cons_of_charAt (by decide) hv
          exact ⟨.variant, s.drop 1, by rw [Ty.sig]; exact hs, by rw [Ty.sig]; exact h.symm,
            by trivial⟩
      · obtain ⟨m, hm, rfl⟩ := Option.map_eq_some_iff.mp h
        obtain ⟨t, rest, hs, rfl, ht⟩ := ihe _ _ _ _ _ hm
        refine ⟨.array t, rest, ?_, ?_, ?_⟩
        · rw [Ty.sig, List.cons_append, ← hs]
          exact eq_cons_of_charAt (by decide) h2
        · rw [Ty.sig, List.length_cons]
        · simp only [Ty.Fits]
          exact ⟨by omega, ht⟩
      · obtain ⟨l, hl, hl'⟩ := Option.bind_eq_some_iff.mp h
        obtain ⟨ts, rest, hs, rfl, hts⟩ := ihs _ _ _ _ hl
        split_ifs at hl' with hz
        simp only [Option.some.injEq] at hl'
        refine ⟨.struct ts, rest, ?_, ?_, ?_⟩
        · rw [Ty.sig, List.cons_append, List.append_assoc, ← hs]
          exact eq_cons_of_charAt (by decide) h4
        · simp [Ty.sig, ← hl']
        · simp only [Ty.Fits]
          refine ⟨by omega, ?_, hts⟩
          rintro rfl
          exact hz rfl
      · obtain ⟨m, hm, rfl⟩ := Option.map_eq_some_iff.mp h
        obtain ⟨ts, rest, hs, rfl, hts, hlen, hkey⟩ := ihd _ _ _ _ _ hm
        obtain ⟨b, us, rfl⟩ := hkey rfl
        obtain ⟨v, rfl⟩ : ∃ v, us = [v] := by
          match us, hlen with
          | [v], _ => exact ⟨v, rfl⟩
        simp only [Ty.AllFit] at hts
        refine ⟨.dictEntry b v, rest, ?_, ?_, ?_⟩
        · rw [eq_cons_of_charAt (by decide) h6.1, hs]
          simp [Ty.sig, Ty.sigs]
        · simp [Ty.sig, Ty.sigs]
        · simp only [Ty.Fits]
          exact ⟨h6.2, by omega, hts.2.1⟩
    · rw [structMembersLength] at h
      split_ifs at h with h1
      · simp only [Option.some.injEq] at h
        exact ⟨[], s.drop 1, by simpa [Ty.sigs] using eq_cons_of_charAt (by decide) h1,
          h.symm, by trivial⟩
      · obtain ⟨t, ht, h'⟩ := Option.bind_eq_some_iff.mp h
        obtain ⟨u, hs, rfl, hu⟩ := (ihe _ _ _ _ _ ht).drop
        obtain ⟨m, hm, rfl⟩ := Option.map_eq_some_iff.mp h'
        obtain ⟨ts, rest, hs', rfl, hts⟩ := ihs _ _ _ _ hm
        refine ⟨u :: ts, rest, ?_, ?_, ?_⟩
        · rw [Ty.sigs, List.append_assoc, ← hs']
          exact hs
        · rw [Ty.sigs, List.length_append]
        · rw [Ty.AllFit]
          exact ⟨hu, hts⟩
    · rw [dictMembersLength] at h
      split_ifs at h with h1 h2 h3
      · simp only [Option.some.injEq] at h
        exact ⟨[], s.drop 1, by simpa [Ty.sigs] using eq_cons_of_charAt (by decide) h1,
          h.symm, by trivial, by simpa using h2, fun hk => by omega⟩
      · obtain ⟨t, ht, h'⟩ := Option.bind_eq_some_iff.mp h
        obtain ⟨u, hs, rfl, hu⟩ := (ihe _ _ _ _ _ ht).drop
        obtain ⟨m, hm, rfl⟩ := Option.map_eq_some_iff.mp h'
        obtain ⟨ts, rest, hs', rfl, hts, hlen, -⟩ := ihd _ _ _ _ _ hm
        refine ⟨u :: ts, rest, ?_, ?_, ?_, ?_, ?_⟩
        · rw [Ty.sigs, List.append_assoc, ← hs']
          exact hs
        · rw [Ty.sigs, List.length_append]
        · rw [Ty.AllFit]
          exact ⟨hu, hts⟩
        · rw [List.length_cons]; omega
        · intro hk
          have hb : busTypeIsBasic (charAt s 0) = true := by
            simpa [hk] using h3
          rw [hs, Ty.charAt_sig_append] at hb
          cases u with
          | basic b => exact ⟨b, ts, rfl⟩
          | _ => exact absurd hb (by rw [Ty.head]; decide)

/-! ## The public predicates -/

theorem charAt_eq_zero_iff {s : Str} (h0 : (0 : UInt8) ∉ s) {i : Nat} (hi : i ≤ s.length) :
    charAt s i = 0 ↔ i = s.length := by
  constructor
  · intro h
    by_contra hne
    have hlt : i < s.length := by omega
    have : s.getD i 0 ∈ s := by
      rw [List.getD_eq_getElem?_getD, List.getElem?_eq_getElem hlt, Option.getD_some]
      exact List.getElem_mem hlt
    rw [charAt] at h
    exact h0 (h ▸ this)
  · rintro rfl
    exact charAt_length s

theorem scan_sig_scanFuel {t : Ty} {r : Str} {allow : Bool} {a d : Nat} (h : t.Fits allow a d) :
    signatureElementLengthInternal (scanFuel (t.sig ++ r)) (t.sig ++ r) allow a d =
      some t.sig.length := by
  apply scan_sig t _ r allow a d h
  rw [scanFuel, List.length_append]
  omega

theorem signatureElementLength_sig {t : Ty} (r : Str) (h : t.Fits true 0 0) :
    signatureElementLength (t.sig ++ r) = some t.sig.length := scan_sig_scanFuel h

theorem signatureElementLength_sound {s : Str} {n : Nat} (h : signatureElementLength s = some n) :
    ∃ t : Ty, s = t.sig ++ s.drop n ∧ n = t.sig.length ∧ t.Fits true 0 0 :=
  ((scan_sound _).1 _ _ _ _ _ h).drop

theorem signatureIsSingle_sig {t : Ty} {allow : Bool} (h : t.Fits allow 0 0) :
    signatureIsSingle t.sig allow = true := by
  have := scan_sig_scanFuel (r := []) h
  rw [List.append_nil] at this
  simp [signatureIsSingle, this, charAt_length]

theorem signatureIsSingle_iff {s : Str} (h0 : (0 : UInt8) ∉ s) (allow : Bool) :
    signatureIsSingle s allow = true ↔ ∃ t : Ty, s = t.sig ∧ t.Fits allow 0 0 := by
  constructor
  · intro h
    unfold signatureIsSingle at h
    split at h
    · exact absurd h (by decide)
    · rename_i n hn
      obtain ⟨t, rest, rfl, rfl, ht⟩ := (scan_sound _).1 _ _ _ _ _ hn
      simp only [decide_eq_true_eq] at h
      rw [charAt_eq_zero_iff h0 (by simp)] at h
      have : rest = [] := by simpa using h
      exact ⟨t, by rw [this, List.append_nil], ht⟩
  · rintro ⟨t, rfl, ht⟩
    exact signatureIsSingle_sig ht

theorem signatureIsPair_iff {s : Str} (h0 : (0 : UInt8) ∉ s) :
    signatureIsPair s = true ↔
      ∃ (k : Basic) (v : Ty), s = k.code :: v.sig ∧ v.Fits false 0 0 := by
  have hd : (0 : UInt8) ∉ s.drop 1 := fun h => h0 (List.mem_of_mem_drop h)
  rw [signatureIsPair, Bool.and_eq_true, signatureIsSingle_iff hd]
  constructor
  · rintro ⟨hb, v, hv, hfit⟩
    obtain ⟨k, hk⟩ := exists_basic_of_code hb
    exact ⟨k, v, by rw [← hv]; exact eq_cons_of_charAt k.code_ne_zero hk.symm, hfit⟩
  · rintro ⟨k, v, rfl, hv⟩
    exact ⟨busTypeIsBasic_code k, v, rfl, hv⟩

theorem signatureIsValidLoop_sigs {allow : Bool} (ts : List Ty) {fuel : Nat}
    (h : ∀ t ∈ ts, t.Fits allow 0 0) (hf : (Ty.sigs ts).length < fuel) :
    signatureIsValidLoop fuel (Ty.sigs ts) allow = true := by
  induction ts generalizing fuel with
  | nil =>
    obtain ⟨f, rfl⟩ : ∃ f, fuel = f + 1 := ⟨fuel - 1, by omega⟩
    rfl
  | cons t ts ih =>
    obtain ⟨f, rfl⟩ : ∃ f, fuel = f + 1 := ⟨fuel - 1, by omega⟩
    have hpos := t.sig_pos
    rw [Ty.sigs, List.length_append] at hf
    rw [signatureIsValidLoop, Ty.sigs, Ty.charAt_sig_append, if_neg t.head_ne_zero,
      scan_sig_scanFuel (h t (by simp))]
    simpa only [List.drop_left] using ih (fun u hu => h u (by simp [hu])) (by omega)

theorem signatureIsValidLoop_sound {allow : Bool} {fuel : Nat} {s : Str} (h0 : (0 : UInt8) ∉ s)
    (h : signatureIsValidLoop fuel s allow = true) :
    ∃ ts, s = Ty.sigs ts ∧ ∀ t ∈ ts, t.Fits allow 0 0 := by
  induction fuel generalizing s with
  | zero => exact absurd h (by simp [signatureIsValidLoop])
  | succ fuel ih =>
    rw [signatureIsValidLoop] at h
    split_ifs at h with hz
    · have : s = [] := by
        have := (charAt_eq_zero_iff h0 (Nat.zero_le _)).mp hz
        exact List.length_eq_zero_iff.mp this.symm
      exact ⟨[], this, by simp⟩
    · split at h
      · exact absurd h (by decide)
      · rename_i n hn
        obtain ⟨t, rest, rfl, rfl, ht⟩ := (scan_sound _).1 _ _ _ _ _ hn
        rw [List.drop_left] at h
        obtain ⟨ts, rfl, hts⟩ := ih (fun hm => h0 (by simp [hm])) h
        exact ⟨t :: ts, by rw [Ty.sigs], by simpa using ⟨ht, hts⟩⟩

theorem signatureIsValid_iff {s : Str} (h0 : (0 : UInt8) ∉ s) (allow : Bool) :
    signatureIsValid s allow = true ↔
      ∃ ts, s = Ty.sigs ts ∧ (∀ t ∈ ts, t.Fits allow 0 0) ∧ s.length ≤ 255 := by
  rw [signatureIsValid, Bool.and_eq_true, decide_eq_true_eq]
  constructor
  · rintro ⟨h, hl⟩
    obtain ⟨ts, rfl, hts⟩ := signatureIsValidLoop_sound h0 h
    exact ⟨ts, rfl, hts, hl⟩
  · rintro ⟨ts, rfl, hts, hl⟩
    exact ⟨signatureIsValidLoop_sigs ts hts (by omega), hl⟩

theorem signatureIsValid_sigs {ts : List Ty} {allow : Bool} (h : ∀ t ∈ ts, t.Fits allow 0 0)
    (hlen : (Ty.sigs ts).length ≤ 255) : signatureIsValid (Ty.sigs ts) allow = true :=
  (signatureIsValid_iff (Ty.zero_notMem_sigs ts) allow).mpr ⟨ts, rfl, h, hlen⟩

mutual

theorem Ty.Fits.mono : ∀ {t : Ty} {allow allow' : Bool} {a a' d d' : Nat},
    t.Fits allow a d → (allow = true → allow' = true) → a' ≤ a → d' ≤ d → t.Fits allow' a' d'
  | .basic _, _, _, _, _, _, _, _, _, _, _ => by rw [Ty.Fits]; trivial
  | .variant, _, _, _, _, _, _, _, _, _, _ => by rw [Ty.Fits]; trivial
  | .array t, _, _, _, _, _, _, h, _, ha, hd => by
    rw [Ty.Fits] at h ⊢
    exact ⟨by omega, h.2.mono id (by omega) hd⟩
  | .struct ts, _, _, _, _, _, _, h, _, ha, hd => by
    rw [Ty.Fits] at h ⊢
    exact ⟨by omega, h.2.1, Ty.AllFit.mono h.2.2 ha (by omega)⟩
  | .dictEntry _ v, _, _, _, _, _, _, h, hal, ha, hd => by
    rw [Ty.Fits] at h ⊢
    exact ⟨hal h.1, by omega, h.2.2.mono id ha (by omega)⟩

theorem Ty.AllFit.mono : ∀ {ts : List Ty} {a a' d d' : Nat},
    Ty.AllFit ts a d → a' ≤ a → d' ≤ d → Ty.AllFit ts a' d'
  | [], _, _, _, _, _, _, _ => by rw [Ty.AllFit]; trivial
  | _ :: _, _, _, _, _, h, ha, hd => by
    rw [Ty.AllFit] at h ⊢
    exact ⟨h.1.mono id ha hd, Ty.AllFit.mono h.2 ha hd⟩

end

theorem Ty.allFit_iff {ts : List Ty} {a d : Nat} :
    Ty.AllFit ts a d ↔ ∀ t ∈ ts, t.Fits false a d := by
  induction ts with
  | nil => simp [Ty.AllFit]
  | cons t ts ih => simp [Ty.AllFit, ih]

end Basu
