import Basu.Address.Params
import Basu.Lib.Separated

/-! Lists of addresses as they are written: unix entries with their keys, and entries of unknown
transports. The cursors of `bus_parse_next_address` are followed on the entries. -/

namespace Basu
open Lib

/-- The keys of a unix entry, with the address they stand for: a path or an abstract name that
fits, and a guid only if it is one. -/
structure IsUnixEntry (ps : List Str) (sockaddr : SockAddr) : Prop where
  params : ∀ p ∈ ps, IsParam p
  address :
    (∃ v, GivesValue pathKey ps v ∧ rawValues abstractKey ps = [] ∧ v.length < sunPathSize ∧
      sockaddr = .unix (v ++ [0])) ∨
    (∃ v, GivesValue abstractKey ps v ∧ rawValues pathKey ps = [] ∧ v.length < sunPathSize - 1 ∧
      sockaddr = .unix (0 :: v))
  guid : rawValues guidKey ps = [] ∨
    ∃ v, GivesValue guidKey ps v ∧ (sdId128FromString v).isSome = true

structure UnixEntry where
  params : List Str
  sockaddr : SockAddr
  wellFormed : IsUnixEntry params sockaddr

structure OtherEntry where
  text : Str
  clean : ∀ c ∈ text, c ≠ charSemicolon ∧ c ≠ 0
  not_unix : ¬unixPrefix <+: text
  not_tcp : ¬tcpPrefix <+: text

inductive AddressEntry
  | unix (e : UnixEntry)
  | other (e : OtherEntry)

def AddressEntry.text : AddressEntry → Str
  | .unix e => unixPrefix ++ joinParams e.params
  | .other e => e.text

def AddressEntry.sockaddr? : AddressEntry → Option SockAddr
  | .unix e => some e.sockaddr
  | .other _ => none

def addressText (es : List AddressEntry) : Str :=
  [charSemicolon].intercalate (es.map AddressEntry.text)

def tailText (es : List AddressEntry) : Str := es.flatMap fun e => charSemicolon :: e.text

theorem tailText_cons (e : AddressEntry) (es : List AddressEntry) :
    tailText (e :: es) = charSemicolon :: (e.text ++ tailText es) := by
  unfold tailText
  rw [List.flatMap_cons, List.cons_append]

theorem addressText_cons (e : AddressEntry) (es : List AddressEntry) :
    addressText (e :: es) = e.text ++ tailText es := by
  unfold addressText
  induction es generalizing e with
  | nil => simp [tailText]
  | cons f es ih =>
    rw [List.map_cons, List.map_cons, List.intercalate_cons_cons, ← List.map_cons, ih, tailText_cons,
      List.append_assoc]
    rfl

theorem endsEntry_tailText (es : List AddressEntry) : EndsEntry (tailText es) := by
  cases es with
  | nil => exact Or.inl rfl
  | cons e es => exact Or.inr ⟨_, tailText_cons e es⟩

theorem joinParams_clean {ps : List Str} (h : ∀ p ∈ ps, IsParam p) :
    ∀ c ∈ joinParams ps, c ≠ charSemicolon ∧ c ≠ 0 := by
  induction ps with
  | nil => intro c hc; exact absurd hc List.not_mem_nil
  | cons p ps ih =>
    intro c hc
    have hps := fun q hq => h q (List.mem_cons_of_mem _ hq)
    cases ps with
    | nil =>
      unfold joinParams at hc
      rw [List.intercalate_singleton] at hc
      exact (h p List.mem_cons_self c hc).2
    | cons q ps =>
      rw [joinParams_cons] at hc
      rcases List.mem_append.mp hc with hc | hc
      · exact (h p List.mem_cons_self c hc).2
      · rcases List.mem_cons.mp hc with rfl | hc
        · decide
        · exact ih hps c hc

theorem AddressEntry.text_clean (e : AddressEntry) : ∀ c ∈ e.text, c ≠ charSemicolon ∧ c ≠ 0 := by
  cases e with
  | other e => exact e.clean
  | unix e =>
    intro c hc
    have hunix : ∀ c ∈ unixPrefix, c ≠ charSemicolon ∧ c ≠ 0 := forall_mem_of_all rfl
    rcases List.mem_append.mp hc with hc | hc
    · exact hunix c hc
    · exact joinParams_clean e.wellFormed.params c hc

theorem AddressEntry.pieces (e : AddressEntry) : ∀ p ∈ e.text.splitOn charComma, IsParam p := by
  intro p hp c hc
  obtain ⟨hmem, hcomma⟩ := mem_of_mem_splitOn hp hc
  exact ⟨hcomma, e.text_clean c hmem⟩

/-- What the loop over the keys takes of the entries behind a key that dangles: the keys behind the
comma of the first that has one, and more if these dangle. -/
def swallow : List AddressEntry → AddressKeys → Except Errno (List AddressEntry × AddressKeys)
  | [], found => .ok ([], found)
  | e :: es, found =>
    match (e.text.splitOn charComma).tail with
    | [] => swallow es found
    | p :: ps =>
      match takeParams unixKeys (p :: ps) found with
      | .error r => .error r
      | .ok f => if dangles unixKeys (p :: ps) then swallow es f else .ok (es, f)

def takeUnix (ps : List Str) (es : List AddressEntry) :
    Except Errno (List AddressEntry × AddressKeys) :=
  match takeParams unixKeys ps fun _ => none with
  | .error r => .error r
  | .ok f => if dangles unixKeys ps then swallow es f else .ok (es, f)

theorem skipAddressKey_clean {s : Str} (h : charComma ∉ s) (rest : Str) :
    skipAddressKey (s ++ rest) = skipAddressKey rest := by
  unfold skipAddressKey
  rw [List.dropWhile_append_of_pos fun c hc => decide_eq_true (ne_of_mem_of_not_mem hc h)]

theorem skipAddressKey_comma {s : Str} (h : charComma ∉ s) (rest : Str) :
    skipAddressKey (s ++ charComma :: rest) = rest := by
  rw [skipAddressKey_clean h]
  rfl

theorem splitOn_comma_cases (s : Str) :
    (s.splitOn charComma).tail = [] ∧ charComma ∉ s ∨
      ∃ a p ps, (s.splitOn charComma).tail = p :: ps ∧ charComma ∉ a ∧
        s = a ++ charComma :: joinParams (p :: ps) := by
  obtain ⟨a, ps, hs⟩ := List.exists_cons_of_ne_nil (List.splitOn_ne_nil charComma s)
  have ha : charComma ∉ a := fun hc => (mem_of_mem_splitOn (hs ▸ List.mem_cons_self) hc).2 rfl
  have hjoin : [charComma].intercalate (s.splitOn charComma) = s :=
    List.intercalate_splitOn charComma
  rw [hs] at hjoin ⊢
  cases ps with
  | nil =>
    rw [List.intercalate_singleton] at hjoin
    exact Or.inl ⟨rfl, hjoin ▸ ha⟩
  | cons p ps => exact Or.inr ⟨a, p, ps, rfl, ha, hjoin.symm.trans (joinParams_cons a p ps)⟩

theorem AddressEntry.tail_params {e : AddressEntry} {ps : List Str}
    (h : (e.text.splitOn charComma).tail = ps) : ∀ p ∈ ps, IsParam p :=
  fun p hp => e.pieces p (List.mem_of_mem_tail (h ▸ hp))

def onText (r : Except Errno (List AddressEntry × AddressKeys)) : Except Errno (Str × AddressKeys) :=
  r.map fun r => (tailText r.1, r.2)

theorem addressKeyLoop_swallow (es : List AddressEntry) (fuel : Nat) (found : AddressKeys)
    (h : (skipAddressKey (tailText es)).length ≤ fuel) :
    addressKeyLoop unixKeys fuel (skipAddressKey (tailText es)) found = onText (swallow es found) := by
  induction es generalizing fuel found with
  | nil => exact addressKeyLoop_stop (Or.inl rfl) fuel found
  | cons e es ih =>
    have hsemicolon : charComma ∉ [charSemicolon] := by decide
    rw [tailText_cons, ← List.singleton_append, skipAddressKey_clean hsemicolon] at h ⊢
    rw [swallow]
    rcases splitOn_comma_cases e.text with ⟨htail, hcomma⟩ | ⟨a, p, ps, htail, ha, htext⟩
    · rw [htail]
      rw [skipAddressKey_clean hcomma] at h ⊢
      exact ih fuel found h
    · rw [htail]
      rw [htext, List.append_assoc, List.cons_append, skipAddressKey_comma ha] at h ⊢
      rw [addressKeyLoop_params isKey_unixKeys (e.tail_params htail) (endsEntry_tailText es) ih fuel
        found h]
      dsimp only
      cases takeParams unixKeys (p :: ps) found with
      | error r => rfl
      | ok f =>
        dsimp only
        split_ifs <;> rfl

theorem parseUnixAddress_entries {ps : List Str} (hps : ∀ p ∈ ps, IsParam p)
    (es : List AddressEntry) :
    parseUnixAddress (joinParams ps ++ tailText es) =
      match takeUnix ps es with
      | .error r => .error r
      | .ok (es, f) => (unixSockAddr (f pathKey) (f abstractKey)).map fun s =>
          (tailText es, s, f guidKey) := by
  unfold parseUnixAddress takeUnix
  rw [addressKeyLoop_params isKey_unixKeys hps (endsEntry_tailText es)
    (fun fuel f h => addressKeyLoop_swallow es fuel f h) _ _ le_rfl]
  cases takeParams unixKeys ps fun _ => none with
  | error r => rfl
  | ok f =>
    dsimp only
    split_ifs
    · unfold onText
      cases swallow es f <;> rfl
    · rfl

def nextUnix : List AddressEntry → Option (UnixEntry × List AddressEntry)
  | [] => none
  | .unix e :: es => some (e, es)
  | .other _ :: es => nextUnix es

/-- What `bus_parse_next_address` finds in the entries: nothing that it could parse, or what the next
unix entry comes to. -/
def NextEntryIs (es : List AddressEntry) (r : Except Errno NextEntry) : Prop :=
  match nextUnix es with
  | none => r = .ok .finish ∨ r = .ok .none
  | some (e, es) => r = match takeUnix e.params es with
    | .error r => .error r
    | .ok (es, f) => (unixSockAddr (f pathKey) (f abstractKey)).map fun s =>
        .found (tailText es) s true (f guidKey)

theorem nextEntryLoop_unix (env : AddressEnv) (e : UnixEntry) (es : List AddressEntry) (fuel : Nat) :
    NextEntryIs (.unix e :: es)
      (nextEntryLoop env (fuel + 1) ((AddressEntry.unix e).text ++ tailText es)) := by
  have htext : (AddressEntry.unix e).text ++ tailText es =
      unixPrefix ++ (joinParams e.params ++ tailText es) := List.append_assoc _ _ _
  have hfirst : charAt (unixPrefix ++ (joinParams e.params ++ tailText es)) 0 = 117 := rfl
  have hdrop : (unixPrefix ++ (joinParams e.params ++ tailText es)).drop 5 =
      joinParams e.params ++ tailText es := rfl
  rw [htext, nextEntryLoop, hfirst, if_neg (by decide), if_neg (by decide),
    isPrefixOf_append_self, if_pos rfl,
    hdrop, parseUnixAddress_entries e.wellFormed.params]
  unfold NextEntryIs nextUnix
  dsimp only
  cases takeUnix e.params es with
  | error r => rfl
  | ok r =>
    dsimp only
    cases unixSockAddr (r.2 pathKey) (r.2 abstractKey) <;> rfl

theorem nextEntryLoop_other (env : AddressEnv) (e : OtherEntry) (es : List AddressEntry)
    (hne : e.text ≠ []) (fuel : Nat) :
    nextEntryLoop env (fuel + 1) (e.text ++ tailText es) =
      if es = [] then .ok .none else nextEntryLoop env fuel (tailText es) := by
  obtain ⟨c, t, htext⟩ := List.exists_cons_of_ne_nil hne
  have hc := e.clean c (htext ▸ List.mem_cons_self)
  have hfirst : charAt (e.text ++ tailText es) 0 = c := by
    rw [htext]
    rfl
  have hsep : EndsParam (tailText es) := (endsEntry_tailText es).endsParam
  have hunix : unixPrefix.isPrefixOf (e.text ++ tailText es) = false := by
    rw [isPrefixOf_append (forall_mem_of_all rfl) hsep, Bool.eq_false_iff]
    exact fun h => e.not_unix (List.isPrefixOf_iff_prefix.mp h)
  have htcp : tcpPrefix.isPrefixOf (e.text ++ tailText es) = false := by
    rw [isPrefixOf_append (forall_mem_of_all rfl) hsep, Bool.eq_false_iff]
    exact fun h => e.not_tcp (List.isPrefixOf_iff_prefix.mp h)
  rw [nextEntryLoop, hfirst, if_neg hc.2, if_neg hc.1, hunix, htcp,
    List.dropWhile_append_of_pos fun c hc => decide_eq_true (e.clean c hc).1]
  simp only [Bool.false_eq_true, if_false]
  cases es with
  | nil => rfl
  | cons f es =>
    rw [tailText_cons, if_neg (List.cons_ne_nil f es)]
    rfl

theorem nextEntryLoop_entry (env : AddressEnv) (e : AddressEntry) (es : List AddressEntry)
    (ih : ∀ fuel, (tailText es).length < fuel →
      NextEntryIs es (nextEntryLoop env fuel (tailText es)))
    (fuel : Nat) (h : (e.text ++ tailText es).length < fuel) :
    NextEntryIs (e :: es) (nextEntryLoop env fuel (e.text ++ tailText es)) := by
  obtain ⟨n, rfl⟩ : ∃ n, fuel = n + 1 := ⟨fuel - 1, by omega⟩
  cases e with
  | unix e => exact nextEntryLoop_unix env e es n
  | other e =>
    by_cases hne : e.text = []
    · have htext : (AddressEntry.other e).text = [] := hne
      rw [htext, List.nil_append] at h ⊢
      exact ih (n + 1) h
    · have hlen : (e.text ++ tailText es).length < n + 1 := h
      have hpos := List.length_pos_iff.mpr hne
      rw [List.length_append] at hlen
      have heq := nextEntryLoop_other env e es hne n
      show NextEntryIs es (nextEntryLoop env (n + 1) (e.text ++ tailText es))
      rw [heq]
      split_ifs with hes
      · subst hes
        exact Or.inr rfl
      · exact ih n (by omega)

theorem nextEntryLoop_tail (env : AddressEnv) (es : List AddressEntry) (fuel : Nat)
    (h : (tailText es).length < fuel) : NextEntryIs es (nextEntryLoop env fuel (tailText es)) := by
  induction es generalizing fuel with
  | nil =>
    obtain ⟨n, rfl⟩ : ∃ n, fuel = n + 1 := ⟨fuel - 1, by omega⟩
    exact Or.inl rfl
  | cons e es ih =>
    rw [tailText_cons] at h ⊢
    obtain ⟨n, rfl⟩ : ∃ n, fuel = n + 1 := ⟨fuel - 1, by omega⟩
    rw [List.length_cons] at h
    have hskip : nextEntryLoop env (n + 1) (charSemicolon :: (e.text ++ tailText es)) =
        nextEntryLoop env n (e.text ++ tailText es) := rfl
    rw [hskip]
    exact nextEntryLoop_entry env e es ih n (by omega)

def AtEntries (a : Str) (es : List AddressEntry) : Prop := a = tailText es ∨ a = addressText es

theorem nextEntryLoop_entries (env : AddressEnv) {a : Str} {es : List AddressEntry}
    (h : AtEntries a es) : NextEntryIs es (nextEntryLoop env (a.length + 1) a) := by
  rcases h with rfl | rfl
  · exact nextEntryLoop_tail env es _ (Nat.lt_succ_self _)
  · cases es with
    | nil => exact Or.inl rfl
    | cons e es =>
      rw [addressText_cons]
      exact nextEntryLoop_entry env e es (nextEntryLoop_tail env es) _ (Nat.lt_succ_self _)

theorem tailText_suffix {es fs : List AddressEntry} (h : es <:+ fs) : tailText es <:+ tailText fs := by
  obtain ⟨t, rfl⟩ := h
  unfold tailText
  rw [List.flatMap_append]
  exact List.suffix_append _ _

theorem AtEntries.suffix {a : Str} {e : AddressEntry} {es fs : List AddressEntry}
    (h : AtEntries a (e :: es)) (hfs : fs <:+ es) : tailText fs <:+ a := by
  refine (tailText_suffix hfs).trans ?_
  rcases h with rfl | rfl
  · rw [tailText_cons, ← List.cons_append]
    exact List.suffix_append _ _
  · rw [addressText_cons]
    exact List.suffix_append _ _

theorem swallow_cons_cases {e : AddressEntry} {es fs : List AddressEntry} {found f : AddressKeys}
    (h : swallow (e :: es) found = .ok (fs, f)) : (∃ g, swallow es g = .ok (fs, f)) ∨ fs = es := by
  rw [swallow] at h
  split at h
  · exact Or.inl ⟨found, h⟩
  · split at h
    · cases h
    · split_ifs at h
      · exact Or.inl ⟨_, h⟩
      · exact Or.inr (Prod.mk.inj (Except.ok.inj h)).1.symm

theorem swallow_suffix {es fs : List AddressEntry} {found f : AddressKeys}
    (h : swallow es found = .ok (fs, f)) : fs <:+ es := by
  induction es generalizing found with
  | nil => exact (Prod.mk.inj (Except.ok.inj h)).1 ▸ List.suffix_rfl
  | cons e es ih =>
    rcases swallow_cons_cases h with ⟨g, hg⟩ | rfl
    · exact (ih hg).trans (List.suffix_cons e es)
    · exact List.suffix_cons e fs

theorem swallow_cons_suffix {e : AddressEntry} {es fs : List AddressEntry} {found f : AddressKeys}
    (h : swallow (e :: es) found = .ok (fs, f)) : fs <:+ es :=
  (swallow_cons_cases h).elim (fun ⟨_, hg⟩ => swallow_suffix hg) fun hes => hes ▸ List.suffix_rfl

theorem takeUnix_suffix {ps : List Str} {es fs : List AddressEntry} {f : AddressKeys}
    (h : takeUnix ps es = .ok (fs, f)) : fs <:+ es := by
  unfold takeUnix at h
  split at h
  · cases h
  · split_ifs at h
    · exact swallow_suffix h
    · simp only [Except.ok.injEq, Prod.mk.injEq] at h
      exact h.1 ▸ List.suffix_rfl

theorem nextUnix_suffix {es fs : List AddressEntry} {e : UnixEntry}
    (h : nextUnix es = some (e, fs)) : ∃ pre, es = pre ++ .unix e :: fs := by
  induction es with
  | nil => cases h
  | cons d es ih =>
    cases d with
    | unix d =>
      simp only [nextUnix, Option.some.injEq, Prod.mk.injEq] at h
      exact ⟨[], by rw [h.1, h.2, List.nil_append]⟩
    | other d =>
      obtain ⟨pre, rfl⟩ := ih h
      exact ⟨.other d :: pre, rfl⟩

end Basu
