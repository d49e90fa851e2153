import Basu.Address.Start

/-! When all addresses of a list are tried. A unix entry that ends in a key that is not known takes
what follows with it, up to the next comma. -/

namespace Basu
open Lib

def sockaddrs (es : List AddressEntry) : List SockAddr := es.filterMap AddressEntry.sockaddr?

def givesGuid (ps : List Str) : Bool := !(rawValues guidKey ps).isEmpty

/-- Keys that a unix entry can take on without becoming another address or a wrong one; `seen` is
whether it has a guid already. -/
structure Idle (seen : Bool) (ps : List Str) : Prop where
  path : rawValues pathKey ps = []
  abstract : rawValues abstractKey ps = []
  guid : rawValues guidKey ps = [] ∨
    seen = false ∧ ∃ v, GivesValue guidKey ps v ∧ (sdId128FromString v).isSome = true

/-- What a unix entry that ends in an unknown key takes with it is of no use: up to the next comma
there is no unix entry, and the keys behind that comma are idle. -/
def Harmless : Bool → List AddressEntry → Prop
  | _, [] => True
  | _, .unix _ :: _ => False
  | seen, .other e :: es =>
    match (e.text.splitOn charComma).tail with
    | [] => Harmless seen es
    | p :: ps => Idle seen (p :: ps) ∧
        (dangles unixKeys (p :: ps) = true → Harmless (seen || givesGuid (p :: ps)) es)

def Clear (es : List AddressEntry) : Prop :=
  ∀ pre e fs, es = pre ++ .unix e :: fs → dangles unixKeys e.params = true →
    Harmless (givesGuid e.params) fs

structure Settled (seen : Bool) (s : SockAddr) (f : AddressKeys) : Prop where
  outcome : unixOutcome f = some s
  guid : (f guidKey).isSome = seen

def Spoiled (f : AddressKeys) : Prop :=
  (∃ v w, f pathKey = some v ∧ f abstractKey = some w) ∨
    ∃ g, f guidKey = some g ∧ sdId128FromString g = none

theorem clear_unix (e : UnixEntry) (es : List AddressEntry) :
    Clear (.unix e :: es) ↔
      (dangles unixKeys e.params = true → Harmless (givesGuid e.params) es) ∧ Clear es := by
  constructor
  · exact fun h => ⟨h [] e es rfl, fun pre d fs hfs => h (.unix e :: pre) d fs (by rw [hfs]; rfl)⟩
  · rintro ⟨hhead, htail⟩ pre d fs hfs
    cases pre with
    | nil =>
      obtain ⟨he, rfl⟩ := List.cons.inj hfs
      obtain rfl := AddressEntry.unix.inj he
      exact hhead
    | cons a pre => exact htail pre d fs (List.cons.inj hfs).2

theorem clear_other (e : OtherEntry) (es : List AddressEntry) :
    Clear (.other e :: es) ↔ Clear es := by
  constructor
  · exact fun h pre d fs hfs => h (.other e :: pre) d fs (by rw [hfs]; rfl)
  · intro h pre d fs hfs
    cases pre with
    | nil => cases (List.cons.inj hfs).1
    | cons a pre => exact h pre d fs (List.cons.inj hfs).2

theorem sockaddrs_unix (e : UnixEntry) (es : List AddressEntry) :
    sockaddrs (.unix e :: es) = e.sockaddr :: sockaddrs es := rfl

theorem sockaddrs_other (e : OtherEntry) (es : List AddressEntry) :
    sockaddrs (.other e :: es) = sockaddrs es := rfl

theorem sockaddrs_suffix {es fs : List AddressEntry} (h : fs <:+ es) :
    (sockaddrs fs).length ≤ (sockaddrs es).length := (h.filterMap _).length_le

theorem clear_others (os : List OtherEntry) (es : List AddressEntry) :
    Clear (os.map .other ++ es) ↔ Clear es := by
  induction os with
  | nil => exact Iff.rfl
  | cons o os ih => exact (clear_other o _).trans ih

theorem sockaddrs_others (os : List OtherEntry) (es : List AddressEntry) :
    sockaddrs (os.map .other ++ es) = sockaddrs es := by
  induction os with
  | nil => rfl
  | cons o os ih => exact ih

/-! ## The keys that are taken -/

theorem guidKey_mem : guidKey ∈ unixKeys := by decide
theorem pathKey_mem : pathKey ∈ unixKeys := by decide
theorem abstractKey_mem : abstractKey ∈ unixKeys := by decide

theorem takes_of_takeParams {ps : List Str} (hps : ∀ p ∈ ps, IsParam p) {found f : AddressKeys}
    (h : takeParams unixKeys ps found = .ok f) {key : Str} (hkey : key ∈ unixKeys) :
    Takes key ps (found key) (f key) :=
  ((takeParams_iff unixKeys_exclusive hps found f).mp h).1 key hkey

theorem Takes.keeps {key : Str} {ps : List Str} {v : Str} {new : Option Str}
    (h : Takes key ps (some v) new) : rawValues key ps = [] ∧ new = some v :=
  h.elim id fun h => absurd h.1 (Option.some_ne_none v)

theorem Takes.idle {key : Str} {ps : List Str} {old new : Option Str} (h : Takes key ps old new)
    (hps : rawValues key ps = []) : new = old := by
  rcases h with ⟨-, h⟩ | ⟨-, v, ⟨raw, w, hraw, -⟩, -⟩
  · exact h
  · exact absurd (hps.symm.trans hraw) (List.cons_ne_nil raw []).symm

theorem unescapes_unique {raw v w : Str} (hraw : IsParam raw) (hv : Unescapes raw v)
    (hw : Unescapes raw w) : v = w := by
  have h := addressValue_of_unescapes hraw hv
  rw [addressValue_of_unescapes hraw hw] at h
  exact (Prod.mk.inj (Except.ok.inj h)).1.symm

theorem rawValues_param {key : Str} {ps : List Str} (hps : ∀ p ∈ ps, IsParam p) :
    ∀ raw ∈ rawValues key ps, IsParam raw := by
  intro raw hraw
  obtain ⟨p, hp, h⟩ := List.mem_filterMap.mp hraw
  exact rawValue_param (hps p hp) h

theorem Takes.gives {key : Str} {ps : List Str} (hps : ∀ p ∈ ps, IsParam p) {old new : Option Str}
    (h : Takes key ps old new) {v : Str} (hv : GivesValue key ps v) : old = none ∧ new = some v := by
  obtain ⟨raw, w, hraw, hw, rfl⟩ := hv
  rcases h with ⟨hnil, -⟩ | ⟨hold, u, ⟨raw', w', hraw', hw', rfl⟩, hnew⟩
  · exact absurd (hnil.symm.trans hraw) (List.cons_ne_nil raw []).symm
  · obtain ⟨rfl, -⟩ := List.cons.inj (hraw.symm.trans hraw')
    have hparam := rawValues_param hps raw (hraw ▸ List.mem_singleton_self raw)
    rw [unescapes_unique hparam hw hw']
    exact ⟨hold, hnew⟩

theorem forall_unixKeys {P : Str → Prop} (hguid : P guidKey) (hpath : P pathKey)
    (habstract : P abstractKey) : ∀ key ∈ unixKeys, P key := by
  unfold unixKeys
  simp only [List.forall_mem_cons, List.not_mem_nil, false_implies, implies_true, and_true]
  exact ⟨hguid, hpath, habstract⟩

theorem givesGuid_of_nil {ps : List Str} (h : rawValues guidKey ps = []) : givesGuid ps = false := by
  unfold givesGuid
  rw [h]
  rfl

theorem givesGuid_of_gives {ps : List Str} {v : Str} (h : GivesValue guidKey ps v) :
    givesGuid ps = true := by
  obtain ⟨raw, w, hraw, -⟩ := h
  unfold givesGuid
  rw [hraw]
  rfl

theorem Settled.of_guid {f : AddressKeys} {s : SockAddr}
    (hsock : unixSockAddr (f pathKey) (f abstractKey) = .ok s)
    (hguid : ∀ g, f guidKey = some g → (sdId128FromString g).isSome = true) :
    Settled (f guidKey).isSome s f := by
  refine ⟨?_, rfl⟩
  unfold unixOutcome
  simp only [hsock]
  cases hg : f guidKey with
  | none => rfl
  | some g => exact if_pos (hguid g hg)

theorem UnixEntry.settled (e : UnixEntry) :
    ∃ f, takeParams unixKeys e.params (fun _ => none) = .ok f ∧
      Settled (givesGuid e.params) e.sockaddr f := by
  obtain ⟨hps, haddress, hguid⟩ := e.wellFormed
  have hgives : ∀ {key v}, GivesValue key e.params v → ∃ new, Takes key e.params none new :=
    fun h => ⟨_, Or.inr ⟨rfl, _, h, rfl⟩⟩
  have hmisses : ∀ {key}, rawValues key e.params = [] → ∃ new, Takes key e.params none new :=
    fun h => ⟨none, Or.inl ⟨h, rfl⟩⟩
  have hall : ∀ key ∈ unixKeys, ∃ new, Takes key e.params none new := by
    apply forall_unixKeys
    · exact hguid.elim hmisses fun ⟨v, hv, _⟩ => hgives hv
    · exact haddress.elim (fun ⟨v, hv, _⟩ => hgives hv) fun ⟨v, _, hno, _⟩ => hmisses hno
    · exact haddress.elim (fun ⟨v, _, hno, _⟩ => hmisses hno) fun ⟨v, hv, _⟩ => hgives hv
  obtain ⟨f, hf⟩ := exists_takeParams unixKeys_exclusive hps hall
  have htakes := fun {key} (hkey : key ∈ unixKeys) => takes_of_takeParams hps hf hkey
  have hsock : unixSockAddr (f pathKey) (f abstractKey) = .ok e.sockaddr := by
    rcases haddress with ⟨v, hv, hno, hlen, hs⟩ | ⟨v, hv, hno, hlen, hs⟩
    · rw [((htakes pathKey_mem).gives hps hv).2, (htakes abstractKey_mem).idle hno, hs]
      exact if_neg (not_le.mpr hlen)
    · rw [((htakes abstractKey_mem).gives hps hv).2, (htakes pathKey_mem).idle hno, hs]
      exact if_neg (not_le.mpr hlen)
  refine ⟨f, hf, ?_⟩
  rcases hguid with hno | ⟨v, hv, hid⟩
  · have hg := (htakes guidKey_mem).idle hno
    have hsettled := Settled.of_guid hsock fun g h => absurd (hg.symm.trans h) nofun
    rw [givesGuid_of_nil hno]
    rwa [hg] at hsettled
  · have hg := ((htakes guidKey_mem).gives hps hv).2
    have hsettled := Settled.of_guid hsock fun g h => Option.some.inj (hg.symm.trans h) ▸ hid
    rw [givesGuid_of_gives hv]
    rwa [hg] at hsettled

theorem Settled.one {seen : Bool} {s : SockAddr} {f : AddressKeys} (h : Settled seen s f) :
    (f pathKey).isSome ≠ (f abstractKey).isSome := by
  have hsock := (unixOutcome_some h.outcome).1
  unfold unixSockAddr at hsock
  split at hsock
  · cases hsock
  · cases hsock
  · next hpath habstract => simp [hpath, habstract]
  · next hpath habstract => simp [hpath, habstract]

theorem Spoiled.outcome {f : AddressKeys} (h : Spoiled f) : unixOutcome f = none := by
  unfold unixOutcome
  rcases h with ⟨v, w, hpath, habstract⟩ | ⟨g, hguid, hid⟩
  · rw [hpath, habstract]
    rfl
  · cases unixSockAddr (f pathKey) (f abstractKey) with
    | error r => rfl
    | ok s =>
      simp only [hguid, hid]
      rfl

theorem Settled.idle {seen : Bool} {s : SockAddr} {found : AddressKeys} (h : Settled seen s found)
    {ps : List Str} (hps : ∀ p ∈ ps, IsParam p) (hidle : Idle seen ps) :
    ∃ f, takeParams unixKeys ps found = .ok f ∧ Settled (seen || givesGuid ps) s f := by
  obtain ⟨hsock, hvalid⟩ := unixOutcome_some h.outcome
  have hold : seen = false → found guidKey = none := fun hseen =>
    Option.not_isSome_iff_eq_none.mp fun hsome => by simp [← h.guid, hsome] at hseen
  have hall : ∀ key ∈ unixKeys, ∃ new, Takes key ps (found key) new := by
    apply forall_unixKeys
    · rcases hidle.guid with hno | ⟨hseen, v, hv, -⟩
      · exact ⟨_, Or.inl ⟨hno, rfl⟩⟩
      · exact ⟨_, Or.inr ⟨hold hseen, v, hv, rfl⟩⟩
    · exact ⟨_, Or.inl ⟨hidle.path, rfl⟩⟩
    · exact ⟨_, Or.inl ⟨hidle.abstract, rfl⟩⟩
  obtain ⟨f, hf⟩ := exists_takeParams unixKeys_exclusive hps hall
  have htakes := fun {key} (hkey : key ∈ unixKeys) => takes_of_takeParams hps hf hkey
  refine ⟨f, hf, ?_⟩
  rw [← (htakes pathKey_mem).idle hidle.path, ← (htakes abstractKey_mem).idle hidle.abstract] at hsock
  rcases hidle.guid with hno | ⟨hseen, v, hv, hid⟩
  · have hg := (htakes guidKey_mem).idle hno
    have hsettled := Settled.of_guid hsock fun g hfg => hvalid g (hg.symm.trans hfg)
    rw [givesGuid_of_nil hno, Bool.or_false, ← h.guid, ← hg]
    exact hsettled
  · have hg := ((htakes guidKey_mem).gives hps hv).2
    have hsettled := Settled.of_guid hsock fun g hfg => Option.some.inj (hg.symm.trans hfg) ▸ hid
    rw [givesGuid_of_gives hv, Bool.or_true]
    rwa [hg] at hsettled

theorem Settled.spoiled {seen : Bool} {s : SockAddr} {found f : AddressKeys}
    (h : Settled seen s found) {ps : List Str} (hps : ∀ p ∈ ps, IsParam p) (hidle : ¬Idle seen ps)
    (hf : takeParams unixKeys ps found = .ok f) : Spoiled f := by
  have htakes := fun {key} (hkey : key ∈ unixKeys) => takes_of_takeParams hps hf hkey
  have hpath := htakes pathKey_mem
  have habstract := htakes abstractKey_mem
  have hguid := htakes guidKey_mem
  have hone := h.one
  rcases hpath with ⟨hnopath, hpath⟩ | ⟨hpathold, v, -, hpathnew⟩
  · rcases habstract with ⟨hnoabstract, habstract⟩ | ⟨habstractold, w, -, habstractnew⟩
    · rcases hguid with ⟨hnoguid, -⟩ | ⟨hguidold, g, hg, hguidnew⟩
      · exact absurd ⟨hnopath, hnoabstract, Or.inl hnoguid⟩ hidle
      · refine Or.inr ⟨g, hguidnew, ?_⟩
        rw [← Option.not_isSome_iff_eq_none]
        intro hid
        have hseen : seen = false := by rw [← h.guid, hguidold]; rfl
        exact hidle ⟨hnopath, hnoabstract, Or.inr ⟨hseen, g, hg, hid⟩⟩
    · rw [habstractold] at hone
      have hsome : (found pathKey).isSome = true := Bool.eq_true_of_not_eq_false hone
      obtain ⟨v, hv⟩ := Option.isSome_iff_exists.mp hsome
      exact Or.inl ⟨v, w, hpath.trans hv, habstractnew⟩
  · rw [hpathold] at hone
    have hsome : (found abstractKey).isSome = true := Bool.eq_true_of_not_eq_false hone.symm
    obtain ⟨w, hw⟩ := Option.isSome_iff_exists.mp hsome
    rw [hw] at habstract
    exact Or.inl ⟨v, w, hpathnew, habstract.keeps.2⟩

theorem Spoiled.after_takeParams {ps : List Str} (hps : ∀ p ∈ ps, IsParam p) {found f : AddressKeys}
    (h : Spoiled found) (hf : takeParams unixKeys ps found = .ok f) : Spoiled f := by
  have hkeeps : ∀ {key v}, key ∈ unixKeys → found key = some v → f key = some v := by
    intro key v hkey hv
    have htakes := takes_of_takeParams hps hf hkey
    rw [hv] at htakes
    exact htakes.keeps.2
  rcases h with ⟨v, w, hpath, habstract⟩ | ⟨g, hguid, hid⟩
  · exact Or.inl ⟨v, w, hkeeps pathKey_mem hpath, hkeeps abstractKey_mem habstract⟩
  · exact Or.inr ⟨g, hkeeps guidKey_mem hguid, hid⟩

/-! ## The keys that are swallowed -/

theorem Settled.after_swallow {seen : Bool} {s : SockAddr} {found : AddressKeys}
    (h : Settled seen s found) {es : List AddressEntry} (hes : Harmless seen es) :
    ∃ fs f, swallow es found = .ok (fs, f) ∧ unixOutcome f = some s ∧
      ∃ os : List OtherEntry, es = os.map .other ++ fs := by
  induction es generalizing seen found with
  | nil => exact ⟨[], found, rfl, h.outcome, [], rfl⟩
  | cons e es ih =>
    cases e with
    | unix e => exact absurd hes id
    | other e =>
      rw [swallow]
      unfold Harmless at hes
      cases htail : (e.text.splitOn charComma).tail with
      | nil =>
        rw [htail] at hes
        obtain ⟨fs, f, hrun, hout, os, hos⟩ := ih h hes
        refine ⟨fs, f, ?_, hout, e :: os, by rw [hos]; rfl⟩
        simp only [AddressEntry.text, htail]
        exact hrun
      | cons p ps =>
        rw [htail] at hes
        have hps := (AddressEntry.other e).tail_params htail
        obtain ⟨f, hf, hsettled⟩ := h.idle hps hes.1
        simp only [AddressEntry.text, htail, hf]
        split_ifs with hdangles
        · obtain ⟨fs, f', hrun, hout, os, hos⟩ := ih hsettled (hes.2 hdangles)
          exact ⟨fs, f', hrun, hout, e :: os, by rw [hos]; rfl⟩
        · exact ⟨es, f, rfl, hsettled.outcome, [e], rfl⟩

theorem Spoiled.after_swallow {found f : AddressKeys} (h : Spoiled found) {es fs : List AddressEntry}
    (hf : swallow es found = .ok (fs, f)) : Spoiled f := by
  induction es generalizing found with
  | nil =>
    simp only [swallow, Except.ok.injEq, Prod.mk.injEq] at hf
    exact hf.2 ▸ h
  | cons e es ih =>
    rw [swallow] at hf
    cases htail : (e.text.splitOn charComma).tail with
    | nil =>
      simp only [htail] at hf
      exact ih h hf
    | cons p ps =>
      simp only [htail] at hf
      cases htake : takeParams unixKeys (p :: ps) found with
      | error r => simp [htake] at hf
      | ok g =>
        simp only [htake] at hf
        have hg := h.after_takeParams (e.tail_params htail) htake
        split_ifs at hf
        · exact ih hg hf
        · simp only [Except.ok.injEq, Prod.mk.injEq] at hf
          exact hf.2 ▸ hg

theorem Settled.lost {seen : Bool} {s : SockAddr} {found f : AddressKeys}
    (h : Settled seen s found) {es fs : List AddressEntry} (hes : ¬Harmless seen es)
    (hf : swallow es found = .ok (fs, f)) :
    Spoiled f ∨ (sockaddrs fs).length < (sockaddrs es).length := by
  induction es generalizing seen found with
  | nil => exact absurd trivial hes
  | cons e es ih =>
    cases e with
    | unix e =>
      have hle := sockaddrs_suffix (swallow_cons_suffix hf)
      right
      rw [sockaddrs_unix, List.length_cons]
      omega
    | other e =>
      rw [sockaddrs_other]
      rw [swallow] at hf
      unfold Harmless at hes
      cases htail : (e.text.splitOn charComma).tail with
      | nil =>
        simp only [AddressEntry.text, htail] at hf hes
        exact ih h hes hf
      | cons p ps =>
        have hps := (AddressEntry.other e).tail_params htail
        simp only [AddressEntry.text, htail] at hf hes
        cases htake : takeParams unixKeys (p :: ps) found with
        | error r => simp [htake] at hf
        | ok g =>
          simp only [htake] at hf
          by_cases hidle : Idle seen (p :: ps)
          · obtain ⟨g', hg', hsettled⟩ := h.idle hps hidle
            obtain rfl := Except.ok.inj (htake.symm.trans hg')
            split_ifs at hf with hdangles
            · exact ih hsettled (fun hh => hes ⟨hidle, fun _ => hh⟩) hf
            · exact absurd ⟨hidle, fun hd => absurd hd hdangles⟩ hes
          · have hg := h.spoiled hps hidle htake
            left
            split_ifs at hf
            · exact hg.after_swallow hf
            · simp only [Except.ok.injEq, Prod.mk.injEq] at hf
              exact hf.2 ▸ hg

/-! ## The list as a whole -/

theorem nextUnix_none {es : List AddressEntry} (h : nextUnix es = none) :
    ∃ os : List OtherEntry, es = os.map .other := by
  induction es with
  | nil => exact ⟨[], rfl⟩
  | cons e es ih =>
    cases e with
    | unix e => cases h
    | other e =>
      obtain ⟨os, rfl⟩ := ih h
      exact ⟨e :: os, rfl⟩

theorem nextUnix_some {es fs : List AddressEntry} {e : UnixEntry} (h : nextUnix es = some (e, fs)) :
    ∃ os : List OtherEntry, es = os.map .other ++ .unix e :: fs := by
  induction es with
  | nil => cases h
  | cons d es ih =>
    cases d with
    | unix d =>
      obtain ⟨rfl, rfl⟩ := Prod.mk.inj (Option.some.inj h)
      exact ⟨[], rfl⟩
    | other d =>
      obtain ⟨os, rfl⟩ := ih h
      exact ⟨d :: os, rfl⟩

theorem Tries.length_le {es : List AddressEntry} {l : List SockAddr} (h : Tries es l) :
    l.length ≤ (sockaddrs es).length := by
  induction h with
  | stop h => exact Nat.zero_le _
  | turn h _ ih =>
    obtain ⟨e, gs, f, hnext, htake, -⟩ := firstTry_some h
    obtain ⟨os, rfl⟩ := nextUnix_some hnext
    have hle := sockaddrs_suffix (takeUnix_suffix htake)
    rw [sockaddrs_others, sockaddrs_unix, List.length_cons, List.length_cons]
    omega

theorem takeUnix_harmless {e : UnixEntry} {gs : List AddressEntry}
    (h : dangles unixKeys e.params = true → Harmless (givesGuid e.params) gs) :
    ∃ fs f, takeUnix e.params gs = .ok (fs, f) ∧ unixOutcome f = some e.sockaddr ∧
      ∃ os : List OtherEntry, gs = os.map .other ++ fs := by
  obtain ⟨f, hf, hsettled⟩ := e.settled
  unfold takeUnix
  simp only [hf]
  split_ifs with hdangles
  · exact hsettled.after_swallow (h hdangles)
  · exact ⟨gs, f, rfl, hsettled.outcome, [], rfl⟩

theorem takeUnix_lost {e : UnixEntry} {gs fs : List AddressEntry} {f : AddressKeys}
    (hdangles : dangles unixKeys e.params = true) (h : ¬Harmless (givesGuid e.params) gs)
    (hf : takeUnix e.params gs = .ok (fs, f)) :
    Spoiled f ∨ (sockaddrs fs).length < (sockaddrs gs).length := by
  obtain ⟨g, hg, hsettled⟩ := e.settled
  unfold takeUnix at hf
  simp only [hg] at hf
  rw [if_pos hdangles] at hf
  exact hsettled.lost h hf

theorem Tries.eq_sockaddrs_iff {es : List AddressEntry} {l : List SockAddr} (h : Tries es l) :
    l = sockaddrs es ↔ Clear es := by
  induction h with
  | @stop es h =>
    unfold firstTry at h
    cases hnext : nextUnix es with
    | none =>
      obtain ⟨os, rfl⟩ := nextUnix_none hnext
      have hclear := clear_others os []
      have hnil := sockaddrs_others os []
      rw [List.append_nil] at hclear hnil
      rw [hclear, hnil]
      exact ⟨fun _ pre e fs hfs => absurd hfs (by simp), fun _ => rfl⟩
    | some r =>
      obtain ⟨e, gs⟩ := r
      obtain ⟨os, rfl⟩ := nextUnix_some hnext
      simp only [hnext] at h
      rw [sockaddrs_others, clear_others, sockaddrs_unix, clear_unix]
      refine ⟨fun hl => absurd hl (List.cons_ne_nil _ _).symm, fun hclear => ?_⟩
      obtain ⟨fs, f, htake, hout, -⟩ := takeUnix_harmless hclear.1
      simp [htake, hout] at h
  | @turn es fs s l h hl ih =>
    obtain ⟨e, gs, f, hnext, htake, hout⟩ := firstTry_some h
    obtain ⟨os, rfl⟩ := nextUnix_some hnext
    rw [sockaddrs_others, clear_others, sockaddrs_unix, clear_unix]
    by_cases hharmless : dangles unixKeys e.params = true → Harmless (givesGuid e.params) gs
    · obtain ⟨fs', f', htake', hout', os', rfl⟩ := takeUnix_harmless hharmless
      obtain ⟨rfl, rfl⟩ := Prod.mk.inj (Except.ok.inj (htake.symm.trans htake'))
      obtain rfl := Option.some.inj (hout.symm.trans hout')
      rw [sockaddrs_others, clear_others, List.cons.injEq, ih]
      exact ⟨fun hclear => ⟨hharmless, hclear.2⟩, fun hclear => ⟨rfl, hclear.2⟩⟩
    · refine ⟨fun heq => ?_, fun hclear => absurd hclear.1 hharmless⟩
      push Not at hharmless
      rcases takeUnix_lost hharmless.1 hharmless.2 htake with hspoiled | hless
      · exact absurd (hspoiled.outcome.symm.trans hout) nofun
      · have hle := hl.length_le
        rw [← (List.cons.inj heq).2] at hless
        omega

/-- With every attempt failing, `bus_start_address` comes to an end, and it has tried the addresses
of all unix entries, in their order and each once, exactly if no unix entry that ends in an unknown
key has taken something of use with it. -/
theorem start_address_tries_all (env : AddressEnv)
    (hfail : ∀ tried s, ∃ r, env.connect tried s = .error r) (es : List AddressEntry)
    (hlen : (addressText es).length ≤ uint32Max) :
    (∃ fuel b r, busStartAddress env fuel { address := some (addressText es) } = some (b, .error r) ∧
        b.tried = sockaddrs es) ↔
      ∀ pre e fs, es = pre ++ .unix e :: fs → dangles unixKeys e.params = true →
        Harmless (givesGuid e.params) fs := by
  obtain ⟨l, hl⟩ := exists_tries es
  obtain ⟨fuel, b, r, hrun, htried⟩ := busStartAddress_tries hfail hlen hl
    (b := { address := some (addressText es) }) ⟨rfl, Or.inr rfl⟩
  have htried : b.tried = l := htried
  refine Iff.trans ?_ hl.eq_sockaddrs_iff
  constructor
  · rintro ⟨fuel', b', r', hrun', htried'⟩
    obtain ⟨rfl, -⟩ := Prod.mk.inj (busStartAddress_unique hrun hrun')
    exact htried.symm.trans htried'
  · exact fun heq => ⟨fuel, b, r, hrun, htried.trans heq⟩

def pathEntry (c : UInt8) (others : List Str)
    (hparams : ∀ p ∈ (pathKey ++ [charEquals, charSlash, c]) :: others, IsParam p)
    (hothers : ∀ key ∈ unixKeys, rawValues key others = []) (hc : c ≠ charPercent ∧ c ≠ 0) :
    UnixEntry where
  params := (pathKey ++ [charEquals, charSlash, c]) :: others
  sockaddr := .unix [charSlash, c, 0]
  wellFormed := by
    have hkey : ∀ key ∈ unixKeys, rawValue key (pathKey ++ [charEquals, charSlash, c]) =
        if key = pathKey then some [charSlash, c] else none := by
      apply forall_unixKeys <;> rfl
    have hvalue : Unescapes [charSlash, c] [charSlash, c] :=
      Unescapes.plain (by decide) (Unescapes.plain hc.1 Unescapes.nil)
    have hstring : [charSlash, c] = cString [charSlash, c] := by
      rw [cString_of_clean]
      simp [charSlash, hc.2.symm]
    refine ⟨hparams, Or.inl ⟨[charSlash, c], ⟨_, _, ?_, hvalue, hstring⟩, ?_, by simp [sunPathSize], rfl⟩,
      Or.inl ?_⟩
    · rw [rawValues_cons_some (hkey _ pathKey_mem), hothers _ pathKey_mem]
    · rw [rawValues_cons_none (hkey _ abstractKey_mem), hothers _ abstractKey_mem]
    · rw [rawValues_cons_none (hkey _ guidKey_mem), hothers _ guidKey_mem]

/-- "unix:path=/a,x=y;unix:path=/b" -/
def swallowedEntries : List AddressEntry :=
  [.unix (pathEntry 97 [[120, 61, 121]] (by unfold IsParam; decide +kernel) (by decide) (by decide)),
    .unix (pathEntry 98 [] (by unfold IsParam; decide +kernel) (by decide) (by decide))]

def refusing : AddressEnv := ⟨fun _ _ _ => .error .eaddrnotavail, fun _ _ => .error .econnrefused⟩

theorem start_address_tries_all_one :
    ∃ fuel b r, busStartAddress refusing fuel
        { address := some (addressText (swallowedEntries.drop 1)) } = some (b, .error r) ∧
      b.tried = sockaddrs (swallowedEntries.drop 1) := by
  apply (start_address_tries_all refusing (fun _ _ => ⟨_, rfl⟩) _ (by decide)).mpr
  exact (clear_unix _ []).mpr ⟨fun _ => trivial, fun pre e fs hfs => absurd hfs (by simp)⟩

/-- The second entry is skipped with the unknown key of the first. -/
theorem not_start_address_tries_all :
    ¬∀ (env : AddressEnv) (_ : ∀ tried s, ∃ r, env.connect tried s = .error r)
      (es : List AddressEntry),
      ∃ fuel b r, busStartAddress env fuel { address := some (addressText es) } =
        some (b, .error r) ∧ b.tried = sockaddrs es := by
  intro h
  obtain ⟨fuel, b, r, hrun, htried⟩ := h refusing (fun _ _ => ⟨_, rfl⟩) swallowedEntries
  have hthree : (busStartAddress refusing 3 { address := some (addressText swallowedEntries) }).map
      (fun r => r.1.tried) = some [.unix [charSlash, 97, 0]] := by decide +kernel
  obtain ⟨x, hx, hone⟩ := Option.map_eq_some_iff.mp hthree
  rw [← busStartAddress_unique hrun hx, htried] at hone
  exact absurd hone (by decide)

end Basu
