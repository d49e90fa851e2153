import Basu.Address.Entries

/-! The turns of `bus_start_address` over a list of addresses, when no attempt to connect succeeds:
which addresses are tried. -/

namespace Basu
open Lib

def unixOutcome (f : AddressKeys) : Option SockAddr :=
  match unixSockAddr (f pathKey) (f abstractKey) with
  | .error _ => none
  | .ok s =>
    match f guidKey with
    | none => some s
    | some g => if (sdId128FromString g).isSome then some s else none

def firstTry (es : List AddressEntry) : Option (SockAddr × List AddressEntry) :=
  match nextUnix es with
  | none => none
  | some (e, es) =>
    match takeUnix e.params es with
    | .error _ => none
    | .ok (es, f) => (unixOutcome f).map fun s => (s, es)

inductive Tries : List AddressEntry → List SockAddr → Prop
  | stop {es : List AddressEntry} (h : firstTry es = none) : Tries es []
  | turn {es fs : List AddressEntry} {s : SockAddr} {l : List SockAddr}
      (h : firstTry es = some (s, fs)) (hl : Tries fs l) : Tries es (s :: l)

theorem firstTry_some {es fs : List AddressEntry} {s : SockAddr} (h : firstTry es = some (s, fs)) :
    ∃ e gs f, nextUnix es = some (e, gs) ∧ takeUnix e.params gs = .ok (fs, f) ∧
      unixOutcome f = some s := by
  unfold firstTry at h
  cases hnext : nextUnix es with
  | none => simp [hnext] at h
  | some r =>
    obtain ⟨e, gs⟩ := r
    cases htake : takeUnix e.params gs with
    | error r => simp [hnext, htake] at h
    | ok r =>
      obtain ⟨fs', f⟩ := r
      simp only [hnext, htake, Option.map_eq_some_iff, Prod.mk.injEq] at h
      obtain ⟨s', hs, rfl, rfl⟩ := h
      exact ⟨e, gs, f, rfl, htake, hs⟩

theorem unixOutcome_some {f : AddressKeys} {s : SockAddr} (h : unixOutcome f = some s) :
    unixSockAddr (f pathKey) (f abstractKey) = .ok s ∧
      ∀ g, f guidKey = some g → (sdId128FromString g).isSome = true := by
  unfold unixOutcome at h
  cases hs : unixSockAddr (f pathKey) (f abstractKey) with
  | error r => simp [hs] at h
  | ok s' =>
    simp only [hs] at h
    cases hg : f guidKey with
    | none =>
      simp only [hg, Option.some.injEq] at h
      exact ⟨by rw [h], fun g hn => by cases hn⟩
    | some g =>
      simp only [hg] at h
      split_ifs at h with hid
      refine ⟨by rw [Option.some.inj h], fun g' hg' => ?_⟩
      rwa [← Option.some.inj hg']

theorem unixSockAddr_ne_unspec {path abstract : Option Str} {s : SockAddr}
    (h : unixSockAddr path abstract = .ok s) : s ≠ .unspec := by
  rintro rfl
  unfold unixSockAddr at h
  split at h
  · cases h
  · cases h
  · split_ifs at h
    cases h
  · split_ifs at h
    cases h

theorem firstTry_length {es fs : List AddressEntry} {s : SockAddr}
    (h : firstTry es = some (s, fs)) : fs.length < es.length := by
  obtain ⟨e, gs, f, hnext, htake, -⟩ := firstTry_some h
  obtain ⟨pre, rfl⟩ := nextUnix_suffix hnext
  have hle := (takeUnix_suffix htake).length_le
  rw [List.length_append, List.length_cons]
  omega

theorem firstTry_suffix {es fs : List AddressEntry} {s : SockAddr} (h : firstTry es = some (s, fs))
    {a : Str} (ha : AtEntries a es) : tailText fs <:+ a := by
  obtain ⟨e, gs, f, hnext, htake, -⟩ := firstTry_some h
  obtain ⟨pre, rfl⟩ := nextUnix_suffix hnext
  have hgs := takeUnix_suffix htake
  cases pre with
  | nil => exact ha.suffix hgs
  | cons d pre =>
    have hpre : gs <:+ pre ++ .unix e :: gs := (List.suffix_cons _ gs).trans (List.suffix_append _ _)
    exact ha.suffix (hgs.trans hpre)

theorem exists_tries (es : List AddressEntry) : ∃ l, Tries es l := by
  induction hn : es.length using Nat.strong_induction_on generalizing es with
  | _ n ih =>
    cases h : firstTry es with
    | none => exact ⟨[], Tries.stop h⟩
    | some r =>
      obtain ⟨s, fs⟩ := r
      obtain ⟨l, hl⟩ := ih fs.length (hn ▸ firstTry_length h) fs rfl
      exact ⟨s :: l, Tries.turn h hl⟩

structure BusAt (A : Str) (es : List AddressEntry) (b : AddressBus) : Prop where
  address : b.address = some A
  cursor : AtEntries (A.drop b.addressIndex) es

def pendingTry (b : AddressBus) : List SockAddr := if b.sockaddr = .unspec then [] else [b.sockaddr]

theorem drop_addressIndexOf {A a : Str} (hlen : A.length ≤ uint32Max) (h : a <:+ A) :
    A.drop (addressIndexOf A a) = a := by
  obtain ⟨t, rfl⟩ := h
  have hindex : addressIndexOf (t ++ a) a = t.length := by
    unfold addressIndexOf
    rw [List.length_append] at hlen ⊢
    rw [Nat.add_sub_cancel, Nat.mod_eq_of_lt (by omega)]
  rw [hindex, List.drop_left]

theorem busTryAddress_fails {env : AddressEnv}
    (hfail : ∀ tried s, ∃ r, env.connect tried s = .error r) (b : AddressBus) :
    ∃ b' r, busTryAddress env b = (b', .error r) ∧ b'.tried = b.tried ++ pendingTry b ∧
      b'.address = b.address ∧ b'.addressIndex = b.addressIndex := by
  unfold busTryAddress pendingTry
  split_ifs with h
  · exact ⟨b, _, rfl, (List.append_nil _).symm, rfl, rfl⟩
  · obtain ⟨r, hr⟩ := hfail b.tried b.sockaddr
    rw [hr]
    exact ⟨_, _, rfl, rfl, rfl, rfl⟩

theorem busParseNextAddress_found (env : AddressEnv) {A : Str} (hlen : A.length ≤ uint32Max)
    {es fs : List AddressEntry} {s : SockAddr} (h : firstTry es = some (s, fs)) {b : AddressBus}
    (hb : BusAt A es b) :
    ∃ b', busParseNextAddress env b = (b', .ok true) ∧ BusAt A fs b' ∧ b'.tried = b.tried ∧
      pendingTry b' = [s] := by
  obtain ⟨e, gs, f, hnext, htake, hout⟩ := firstTry_some h
  obtain ⟨hsock, hguid⟩ := unixOutcome_some hout
  have hloop := nextEntryLoop_entries env hb.cursor
  unfold NextEntryIs at hloop
  simp only [hnext, htake, hsock, Except.map] at hloop
  have hgo : charAt A b.addressIndex ≠ 0 := by
    intro hnul
    rw [charAt_drop] at hnul
    rw [nextEntryLoop, if_pos hnul] at hloop
    cases hloop
  have hsuffix : tailText fs <:+ A :=
    (firstTry_suffix h hb.cursor).trans (List.drop_suffix b.addressIndex A)
  have hspec : s ≠ .unspec := unixSockAddr_ne_unspec hsock
  have hdrop := drop_addressIndexOf hlen hsuffix
  have hindex : (busResetParsedAddress b).addressIndex = b.addressIndex := rfl
  unfold busParseNextAddress
  simp only [hb.address, if_neg hgo, hindex, hloop]
  cases hg : f guidKey with
  | none => exact ⟨_, rfl, ⟨hb.address, Or.inl hdrop⟩, rfl, if_neg hspec⟩
  | some g =>
    obtain ⟨id, hid⟩ := Option.isSome_iff_exists.mp (hguid g hg)
    simp only [hid]
    exact ⟨_, rfl, ⟨hb.address, Or.inl hdrop⟩, rfl, if_neg hspec⟩

structure AtEnd (A : Str) (b : AddressBus) : Prop where
  address : b.address = some A
  cursor : charAt A b.addressIndex = 0
  sockaddr : b.sockaddr = .unspec

theorem busParseNextAddress_stop (env : AddressEnv) {A : Str} (hlen : A.length ≤ uint32Max)
    {es : List AddressEntry} (h : firstTry es = none) {b : AddressBus} (hb : BusAt A es b) :
    ∃ b' r, busParseNextAddress env b = (b', r) ∧ b'.tried = b.tried ∧
      (r = .ok true → AtEnd A b') := by
  have hindex : (busResetParsedAddress b).addressIndex = b.addressIndex := rfl
  have hloop := nextEntryLoop_entries env hb.cursor
  unfold busParseNextAddress
  simp only [hb.address]
  split_ifs with hgo
  · exact ⟨b, _, rfl, rfl, fun hr => by cases hr⟩
  rw [hindex]
  unfold NextEntryIs at hloop
  unfold firstTry at h
  cases hnext : nextUnix es with
  | none =>
    simp only [hnext] at hloop
    rcases hloop with hloop | hloop
    · rw [hloop]
      have hend := drop_addressIndexOf hlen (List.nil_suffix : [] <:+ A)
      refine ⟨_, _, rfl, rfl, fun _ => ⟨hb.address, ?_, rfl⟩⟩
      rw [charAt_drop, hend]
      rfl
    · rw [hloop]
      exact ⟨_, _, rfl, rfl, fun hr => by cases hr⟩
  | some r =>
    obtain ⟨e, gs⟩ := r
    simp only [hnext] at hloop h
    cases htake : takeUnix e.params gs with
    | error r =>
      simp only [htake] at hloop
      rw [hloop]
      exact ⟨_, _, rfl, rfl, fun hr => by cases hr⟩
    | ok r =>
      obtain ⟨fs, f⟩ := r
      simp only [htake, Option.map_eq_none_iff, unixOutcome] at hloop h
      cases hsock : unixSockAddr (f pathKey) (f abstractKey) with
      | error r =>
        simp only [hsock, Except.map] at hloop
        rw [hloop]
        exact ⟨_, _, rfl, rfl, fun hr => by cases hr⟩
      | ok s =>
        simp only [hsock, Except.map] at hloop h
        rw [hloop]
        cases hg : f guidKey with
        | none => simp [hg] at h
        | some g =>
          simp only [hg] at h
          have hid : sdId128FromString g = none := by
            cases hid : sdId128FromString g with
            | none => rfl
            | some id => simp [hid] at h
          simp only [hid]
          exact ⟨_, _, rfl, rfl, fun hr => by cases hr⟩

theorem busStartAddress_end {env : AddressEnv} {A : Str} {b : AddressBus} (hb : AtEnd A b) :
    ∃ b' r, busStartAddress env 1 b = some (b', .error r) ∧ b'.tried = b.tried := by
  have htry : busTryAddress env b = (b, .error .econnrefused) := if_pos hb.sockaddr
  have hparse : busParseNextAddress env b = (b, .ok false) := by
    unfold busParseNextAddress
    simp only [hb.address]
    exact if_pos hb.cursor
  rw [busStartAddress, htry]
  simp only [hparse]
  exact ⟨b, _, rfl, rfl⟩

theorem busStartAddress_stop {env : AddressEnv}
    (hfail : ∀ tried s, ∃ r, env.connect tried s = .error r) {A : Str} (hlen : A.length ≤ uint32Max)
    {es : List AddressEntry} (h : firstTry es = none) {b : AddressBus} (hb : BusAt A es b) :
    ∃ b' r, busStartAddress env 2 b = some (b', .error r) ∧ b'.tried = b.tried ++ pendingTry b := by
  obtain ⟨c, r, htry, htried, haddress, hindex⟩ := busTryAddress_fails hfail b
  have hc : BusAt A es c := ⟨haddress.trans hb.address, hindex ▸ hb.cursor⟩
  obtain ⟨d, q, hparse, hkept, hend⟩ := busParseNextAddress_stop env hlen h hc
  rw [busStartAddress, htry]
  simp only [hparse]
  match q with
  | .error q => exact ⟨d, q, rfl, hkept.trans htried⟩
  | .ok false => exact ⟨d, _, rfl, hkept.trans htried⟩
  | .ok true =>
    obtain ⟨b', r', hrun, hlast⟩ := @busStartAddress_end env A d (hend rfl)
    exact ⟨b', r', hrun, hlast.trans (hkept.trans htried)⟩

theorem busStartAddress_tries {env : AddressEnv}
    (hfail : ∀ tried s, ∃ r, env.connect tried s = .error r) {A : Str} (hlen : A.length ≤ uint32Max)
    {es : List AddressEntry} {l : List SockAddr} (hl : Tries es l) {b : AddressBus}
    (hb : BusAt A es b) :
    ∃ fuel b' r, busStartAddress env fuel b = some (b', .error r) ∧
      b'.tried = b.tried ++ pendingTry b ++ l := by
  induction hl generalizing b with
  | stop h =>
    obtain ⟨b', r, hrun, htried⟩ := busStartAddress_stop hfail hlen h hb
    exact ⟨2, b', r, hrun, by rw [htried, List.append_nil]⟩
  | @turn es fs s l h _ ih =>
    obtain ⟨c, r, htry, htried, haddress, hindex⟩ := busTryAddress_fails hfail b
    have hc : BusAt A es c := ⟨haddress.trans hb.address, hindex ▸ hb.cursor⟩
    obtain ⟨d, hparse, hd, hkept, hpending⟩ := busParseNextAddress_found env hlen h hc
    obtain ⟨fuel, b', r', hrun, hlast⟩ := ih hd
    refine ⟨fuel + 1, b', r', ?_, ?_⟩
    · rw [busStartAddress, htry]
      simp only [hparse]
      exact hrun
    · rw [hlast, hkept, htried, hpending, List.append_assoc, List.singleton_append]

theorem busStartAddress_mono {env : AddressEnv} {fuel : Nat} {b : AddressBus}
    {x : AddressBus × Except Errno Unit} (h : busStartAddress env fuel b = some x) (k : Nat) :
    busStartAddress env (fuel + k) b = some x := by
  induction fuel generalizing b with
  | zero => cases h
  | succ fuel ih =>
    rw [Nat.add_right_comm, busStartAddress]
    rw [busStartAddress] at h
    split at h
    · exact h
    · split at h
      · exact h
      · exact h
      · exact ih h

theorem busStartAddress_unique {env : AddressEnv} {n m : Nat} {b : AddressBus}
    {x y : AddressBus × Except Errno Unit} (hx : busStartAddress env n b = some x)
    (hy : busStartAddress env m b = some y) : x = y := by
  have hx' := busStartAddress_mono hx m
  have hy' := busStartAddress_mono hy n
  rw [Nat.add_comm, hx'] at hy'
  exact Option.some.inj hy'

end Basu
