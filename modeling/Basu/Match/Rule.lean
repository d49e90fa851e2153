import Basu.Match.Parse
import Mathlib.Data.List.Perm.Subperm

/-! Match rules as they are written, and what the parser makes of them. -/

namespace Basu
open Lib

/-! ## Nothing is read behind the end -/

theorem readAt_of_le {p : Str} {i : Nat} (h : i ≤ p.length) : readAt p i = some (charAt p i) :=
  if_pos h

theorem advance_of_le {p : Str} {n : Nat} (h : n ≤ p.length) : advance p n = some (p.drop n) :=
  if_pos h

theorem isSome_argBegins {k : Str} {n : Nat} (i : Nat) (word : Str) (hn : n ≤ k.length) :
    (argBegins k n i word).isSome = true := by
  unfold argBegins
  split_ifs with h
  · rw [advance_of_le (by omega)]
    rfl
  · rfl

theorem argBegins_true {k : Str} {n i : Nat} {word : Str} (h : argBegins k n i word = some true) :
    n = i + word.length := by
  unfold argBegins at h
  split_ifs at h with hn
  · exact hn.1
  · cases h

theorem isSome_argDigit {k : Str} (h : 3 ≤ k.length) (type : Fin 64 → NodeType) :
    (argDigit k type).isSome = true := by
  unfold argDigit
  rw [readAt_of_le h]
  rfl

theorem isSome_argDigits {k : Str} (h : 4 ≤ k.length) (type : Fin 64 → NodeType) :
    (argDigits k type).isSome = true := by
  unfold argDigits
  rw [readAt_of_le (by omega), readAt_of_le h]
  rfl

theorem isSome_argFamily {k : Str} {n : Nat} (hn : n ≤ k.length) (word : Str)
    (type : Fin 64 → NodeType) {otherwise : Option (Except Errno NodeType)}
    (ho : otherwise.isSome = true) : (argFamily k n word type otherwise).isSome = true := by
  unfold argFamily
  obtain ⟨a, ha⟩ := Option.isSome_iff_exists.mp (isSome_argBegins 4 word hn)
  obtain ⟨b, hb⟩ := Option.isSome_iff_exists.mp (isSome_argBegins 5 word hn)
  rw [ha, hb]
  cases a with
  | true =>
    have hlen := argBegins_true ha
    exact isSome_argDigit (by omega) type
  | false =>
    cases b with
    | true =>
      have hlen := argBegins_true hb
      exact isSome_argDigits (by omega) type
    | false => exact ho

theorem isSome_nodeType {k : Str} {n : Nat} (hn : n ≤ k.length) :
    (busMatchNodeTypeFromString k n).isSome = true := by
  unfold busMatchNodeTypeFromString
  split_ifs
  all_goals first
    | rfl
    | exact isSome_argFamily hn _ _ (isSome_argFamily hn _ _ (isSome_argFamily hn _ _
        (isSome_argFamily hn _ _ rfl)))

theorem matchValue_quote {escaped : Bool} {value p : Str} {r : Str × Str}
    (h : matchValue true escaped value p = .ok r) : 1 ≤ r.2.length := by
  induction p generalizing escaped value with
  | nil => cases h
  | cons c p ih =>
    rw [matchValue] at h
    split_ifs at h
    · exact ih h
    · rw [← Except.ok.inj h]
      exact Nat.le_add_left 1 p.length
    · rw [← Except.ok.inj h]
      exact Nat.le_add_left 1 p.length
    · exact ih h

theorem matchTurn_some (p : Str) :
    ∃ r, matchTurn p = some r ∧
      ∀ c q quoted, r = .ok (c, q, quoted) → quoted.toNat ≤ q.length := by
  unfold matchTurn
  dsimp only
  generalize p.dropWhile (· == charBlank) = k
  have hsuffix := List.dropWhile_suffix (· != charEquals) (l := k)
  generalize k.dropWhile (· != charEquals) = eq at hsuffix
  cases eq with
  | nil => exact ⟨_, rfl, nofun⟩
  | cons e eq =>
    have hlen := hsuffix.length_le
    obtain ⟨t, ht⟩ := Option.isSome_iff_exists.mp
      (isSome_nodeType (Nat.sub_le k.length (e :: eq).length))
    dsimp only
    rw [ht, readAt_of_le (Nat.le_add_left 1 eq.length)]
    cases t with
    | error r => exact ⟨_, rfl, nofun⟩
    | ok t =>
      dsimp only
      have hquote : 1 + (charAt (e :: eq) 1 == charQuote).toNat ≤ (e :: eq).length := by
        cases hq : charAt (e :: eq) 1 == charQuote with
        | false => exact Nat.le_add_left 1 eq.length
        | true =>
          have hne : charAt (e :: eq) 1 ≠ 0 := by
            rw [beq_iff_eq.mp hq]
            decide
          exact lt_length_of_charAt_ne hne
      rw [advance_of_le hquote]
      refine ⟨_, rfl, fun c q quoted hr => ?_⟩
      generalize (charAt (e :: eq) 1 == charQuote) = b at hr
      generalize List.drop (1 + b.toNat) (e :: eq) = s at hr
      cases hv : matchValue b false [] s with
      | error r => simp [hv] at hr
      | ok v =>
        cases hc : matchComponent t v.1 with
        | error r => simp [hv, hc, Except.map] at hr
        | ok d =>
          simp only [hv, hc, Except.map, Except.ok.injEq, Prod.mk.injEq] at hr
          obtain ⟨-, rfl, rfl⟩ := hr
          cases b with
          | false => exact Nat.zero_le _
          | true => exact matchValue_quote hv

theorem matchLoop_some (fuel : Nat) (p : Str) (components : List MatchComponent) :
    (matchLoop fuel p components).isSome = true := by
  induction fuel generalizing p components with
  | zero => rfl
  | succ fuel ih =>
    rw [matchLoop]
    split_ifs with hp
    · rfl
    · obtain ⟨r, hr, hlook⟩ := matchTurn_some p
      rw [hr]
      match r with
      | .error r => rfl
      | .ok (c, q, quoted) =>
        have hle := hlook c q quoted rfl
        dsimp only
        rw [readAt_of_le hle]
        dsimp only
        split_ifs with hend hcomma
        · rfl
        · rfl
        · have hlt := lt_length_of_charAt_ne hend
          rw [advance_of_le (by omega)]
          exact ih _ _

theorem busMatchParse_isSome (rule : Str) : (busMatchParse rule).isSome = true := by
  unfold busMatchParse
  rw [Option.isSome_map]
  exact matchLoop_some _ _ _

/-! ## Rules as they are written -/

def argNumber (i : Fin 64) : Str :=
  if i.val < 10 then [48 + UInt8.ofNat i] else [48 + UInt8.ofNat (i / 10), 48 + UInt8.ofNat (i % 10)]

def NodeType.key : NodeType → Str
  | .sender => senderWord
  | .messageType => typeWord
  | .destination => destinationWord
  | .interface => interfaceWord
  | .member => memberWord
  | .path => pathWord
  | .pathNamespace => pathNamespaceWord
  | .arg i => argWord ++ argNumber i
  | .argPath i => argWord ++ argNumber i ++ pathWord
  | .argNamespace i => argWord ++ argNumber i ++ namespaceWord
  | .argHas i => argWord ++ argNumber i ++ hasWord

inductive MessageKind
  | methodCall | methodReturn | error | signal
  deriving DecidableEq, Repr

def MessageKind.name : MessageKind → Str
  | .methodCall => methodCallName
  | .methodReturn => methodReturnName
  | .error => errorName
  | .signal => signalName

def MessageKind.code : MessageKind → UInt8
  | .methodCall => 1
  | .methodReturn => 2
  | .error => 3
  | .signal => 4

inductive RuleComponent
  | message (kind : MessageKind)
  | other (type : NodeType) (value : Str) (not_message : type ≠ .messageType)
      (clean : (0 : UInt8) ∉ value)

def RuleComponent.type : RuleComponent → NodeType
  | .message _ => .messageType
  | .other t _ _ _ => t

def RuleComponent.value : RuleComponent → Str
  | .message kind => kind.name
  | .other _ v _ _ => v

def RuleComponent.component : RuleComponent → MatchComponent
  | .message kind => ⟨.messageType, kind.code, none⟩
  | .other t v _ _ => ⟨t, 0, some v⟩

def matchEscape (v : Str) : Str :=
  v.flatMap fun c => if c = charQuote ∨ c = charBackslash then [charBackslash, c] else [c]

def RuleComponent.text (blanks : Nat) (c : RuleComponent) : Str :=
  List.replicate blanks charBlank ++
    (c.type.key ++ charEquals :: charQuote :: (matchEscape c.value ++ [charQuote]))

def ruleText (items : List (Nat × RuleComponent)) : Str :=
  [charComma].intercalate (items.map fun i => i.2.text i.1)

theorem argBegins_skip {k : Str} {n i : Nat} {word : Str} (h : n ≠ i + word.length) :
    argBegins k n i word = some false := if_neg fun hn => h hn.1

theorem argFamily_skip {k : Str} {n : Nat} {word : Str} {type : Fin 64 → NodeType}
    {otherwise : Option (Except Errno NodeType)} (h4 : n ≠ 4 + word.length)
    (h5 : n ≠ 5 + word.length) : argFamily k n word type otherwise = otherwise := by
  unfold argFamily
  rw [argBegins_skip h4, argBegins_skip h5]

theorem argNumber_digit {i : Fin 64} (h : i.val < 10) :
    argNumber i = [48 + UInt8.ofNat i] ∧ undecchar (48 + UInt8.ofNat i) = some i.val := by
  revert i
  decide

theorem argNumber_digits {i : Fin 64} (h : ¬i.val < 10) :
    argNumber i = [48 + UInt8.ofNat (i / 10), 48 + UInt8.ofNat (i % 10)] ∧
      undecchar (48 + UInt8.ofNat (i / 10)) = some (i.val / 10) ∧
      undecchar (48 + UInt8.ofNat (i % 10)) = some (i.val % 10) ∧ i.val / 10 ≠ 0 := by
  revert i
  decide

theorem argBegins_word {k : Str} {n i : Nat} {word rest : Str} (hn : n = i + word.length)
    (hk : argWord.isPrefixOf k = true) (hi : i ≤ k.length) (hdrop : k.drop i = word ++ rest) :
    argBegins k n i word = some true := by
  unfold argBegins
  rw [if_pos ⟨hn, hk⟩, advance_of_le hi, hdrop, Option.map_some, isPrefixOf_append_self]

theorem argFamily_digit {i : Fin 64} (h : i.val < 10) (word rest : Str) (type : Fin 64 → NodeType)
    (otherwise : Option (Except Errno NodeType)) :
    argFamily (argWord ++ argNumber i ++ word ++ rest) (argWord ++ argNumber i ++ word).length word
      type otherwise = some (.ok (type i)) := by
  obtain ⟨hnumber, hdigit⟩ := argNumber_digit h
  rw [hnumber]
  generalize (48 + UInt8.ofNat i.val : UInt8) = c at hdigit
  have hk : argWord ++ [c] ++ word ++ rest = 97 :: 114 :: 103 :: c :: (word ++ rest) := rfl
  have hn : (argWord ++ [c] ++ word).length = 4 + word.length := by
    rw [List.length_append]
    rfl
  unfold argFamily
  rw [hk, argBegins_word hn rfl (by simp) rfl]
  have hread : readAt (97 :: 114 :: 103 :: c :: (word ++ rest)) 3 = some c :=
    readAt_of_le (by simp)
  unfold argDigit
  simp only [hread, Option.map_some, hdigit]
  rw [dif_pos i.isLt]

theorem argFamily_digits {i : Fin 64} (h : ¬i.val < 10) (word rest : Str) (type : Fin 64 → NodeType)
    (otherwise : Option (Except Errno NodeType)) :
    argFamily (argWord ++ argNumber i ++ word ++ rest) (argWord ++ argNumber i ++ word).length word
      type otherwise = some (.ok (type i)) := by
  obtain ⟨hnumber, hfirst, hsecond, hne⟩ := argNumber_digits h
  rw [hnumber]
  generalize (48 + UInt8.ofNat (i / 10) : UInt8) = c at hfirst
  generalize (48 + UInt8.ofNat (i % 10) : UInt8) = d at hsecond
  have hk : argWord ++ [c, d] ++ word ++ rest = 97 :: 114 :: 103 :: c :: d :: (word ++ rest) := rfl
  have hn : (argWord ++ [c, d] ++ word).length = 5 + word.length := by
    rw [List.length_append]
    rfl
  unfold argFamily
  rw [hk, argBegins_skip (by omega), argBegins_word hn rfl (by simp) rfl]
  have hread : readAt (97 :: 114 :: 103 :: c :: d :: (word ++ rest)) 3 = some c :=
    readAt_of_le (by simp)
  have hread' : readAt (97 :: 114 :: 103 :: c :: d :: (word ++ rest)) 4 = some d :=
    readAt_of_le (by simp)
  have hvalue : i.val / 10 * 10 + i.val % 10 = i.val := Nat.div_add_mod' _ _
  unfold argDigits
  simp only [hread, hread', hfirst, hsecond, hvalue]
  rw [if_neg hne, dif_pos i.isLt]

theorem argFamily_number (i : Fin 64) (word rest : Str) (type : Fin 64 → NodeType)
    (otherwise : Option (Except Errno NodeType)) :
    argFamily (argWord ++ argNumber i ++ word ++ rest) (argWord ++ argNumber i ++ word).length word
      type otherwise = some (.ok (type i)) := by
  by_cases h : i.val < 10
  · exact argFamily_digit h word rest type otherwise
  · exact argFamily_digits h word rest type otherwise

theorem nodeType_arg (k : Str) (n : Nat) :
    busMatchNodeTypeFromString (argWord ++ k) n =
      (argFamily (argWord ++ k) n [] .arg <|
      argFamily (argWord ++ k) n pathWord .argPath <|
      argFamily (argWord ++ k) n namespaceWord .argNamespace <|
      argFamily (argWord ++ k) n hasWord .argHas <|
      some (.error .einval)) := by
  unfold busMatchNodeTypeFromString
  have hnot : ∀ {m : Nat} {w : Str}, w.isPrefixOf (argWord ++ k) = false →
      ¬(n = m ∧ w.isPrefixOf (argWord ++ k) = true) := fun hw h => by simp [hw] at h
  rw [if_neg (hnot rfl), if_neg (hnot rfl), if_neg (hnot rfl), if_neg (hnot rfl), if_neg (hnot rfl),
    if_neg (hnot rfl), if_neg (hnot rfl)]

theorem length_argNumber (i : Fin 64) : (argNumber i).length = 1 ∨ (argNumber i).length = 2 := by
  unfold argNumber
  split_ifs
  · exact Or.inl rfl
  · exact Or.inr rfl

theorem length_argKey (i : Fin 64) (word : Str) :
    (argWord ++ argNumber i ++ word).length = 4 + word.length ∨
      (argWord ++ argNumber i ++ word).length = 5 + word.length := by
  rw [List.length_append, List.length_append]
  exact (length_argNumber i).imp (fun h => by rw [h]; rfl) fun h => by rw [h]; rfl

theorem argFamily_path_has (i : Fin 64) (rest : Str) (type : Fin 64 → NodeType)
    (otherwise : Option (Except Errno NodeType)) :
    argFamily (argWord ++ argNumber i ++ hasWord ++ rest) (argWord ++ argNumber i ++ hasWord).length
      pathWord type otherwise = otherwise := by
  unfold argFamily
  by_cases h : i.val < 10
  · have hlen : (argWord ++ argNumber i ++ hasWord).length = 7 := by
      rw [(argNumber_digit h).1]
      rfl
    rw [hlen, argBegins_skip (by decide), argBegins_skip (by decide)]
  · have hlen : (argWord ++ argNumber i ++ hasWord).length = 8 := by
      rw [(argNumber_digits h).1]
      rfl
    have hdigit : (112 == 48 + UInt8.ofNat (i.val % 10)) = false := by
      revert i
      decide
    have hfour : argBegins (argWord ++ argNumber i ++ hasWord ++ rest) 8 4 pathWord = some false := by
      unfold argBegins
      rw [(argNumber_digits h).1, if_pos ⟨rfl, rfl⟩, advance_of_le (by simp [argWord])]
      have hfalse : (112 == 48 + UInt8.ofNat (i.val % 10) &&
          List.isPrefixOf [97, 116, 104] (hasWord ++ rest)) = false := by
        rw [hdigit, Bool.false_and]
      exact congrArg some hfalse
    rw [hlen, hfour, argBegins_skip (by decide)]

theorem nodeType_key (t : NodeType) (rest : Str) :
    busMatchNodeTypeFromString (t.key ++ rest) t.key.length = some (.ok t) := by
  have harg : ∀ (i : Fin 64) (word : Str) (n : Nat),
      busMatchNodeTypeFromString (argWord ++ argNumber i ++ word ++ rest) n =
        (argFamily (argWord ++ argNumber i ++ word ++ rest) n [] .arg <|
        argFamily (argWord ++ argNumber i ++ word ++ rest) n pathWord .argPath <|
        argFamily (argWord ++ argNumber i ++ word ++ rest) n namespaceWord .argNamespace <|
        argFamily (argWord ++ argNumber i ++ word ++ rest) n hasWord .argHas <|
        some (.error .einval)) := by
    intro i word n
    rw [List.append_assoc, List.append_assoc, nodeType_arg]
  cases t with
  | sender => rfl
  | messageType => rfl
  | destination => rfl
  | interface => rfl
  | member => rfl
  | path => rfl
  | pathNamespace => rfl
  | arg i =>
    have h := harg i [] (argWord ++ argNumber i ++ []).length
    rw [argFamily_number] at h
    simp only [List.append_nil] at h
    exact h
  | argPath i =>
    have hlen := length_argKey i pathWord
    unfold NodeType.key
    rw [harg, argFamily_skip, argFamily_number]
    all_goals
      simp only [pathWord, List.length_cons, List.length_nil] at hlen ⊢
      omega
  | argNamespace i =>
    have hlen := length_argKey i namespaceWord
    unfold NodeType.key
    rw [harg, argFamily_skip, argFamily_skip, argFamily_number]
    all_goals
      simp only [namespaceWord, pathWord, List.length_cons, List.length_nil] at hlen ⊢
      omega
  | argHas i =>
    have hlen := length_argKey i hasWord
    unfold NodeType.key
    rw [harg, argFamily_skip, argFamily_path_has, argFamily_skip, argFamily_number]
    all_goals
      simp only [hasWord, namespaceWord, List.length_cons, List.length_nil] at hlen ⊢
      omega

theorem counterSize_pos : 0 < counterSize := by decide

theorem matchEscape_cons (c : UInt8) (v : Str) :
    matchEscape (c :: v) =
      (if c = charQuote ∨ c = charBackslash then [charBackslash, c] else [c]) ++ matchEscape v :=
  List.flatMap_cons

theorem matchValue_escape (v rest acc : Str) :
    matchValue true false acc (matchEscape v ++ charQuote :: rest) =
      .ok (v.foldl (pushWrap counterSize) acc, charQuote :: rest) := by
  induction v generalizing acc with
  | nil => rfl
  | cons c v ih =>
    rw [matchEscape_cons, List.append_assoc, List.foldl_cons, ← ih]
    split_ifs with h
    · rw [List.cons_append, List.singleton_append, matchValue]
      simp only [Bool.not_false, Bool.true_and, beq_self_eq_true, if_true]
      rw [matchValue]
      simp
    · rw [not_or] at h
      rw [List.singleton_append, matchValue]
      simp [h.1, h.2]

def RuleComponent.kept : RuleComponent → MatchComponent
  | .message kind => ⟨.messageType, kind.code, none⟩
  | .other t v _ _ => ⟨t, 0, some (sinceWrap counterSize v)⟩

theorem matchComponent_kept (c : RuleComponent) :
    matchComponent c.type (sinceWrap counterSize c.value) = .ok c.kept := by
  cases c with
  | message kind =>
    rw [sinceWrap_of_lt (by cases kind <;> decide)]
    cases kind <;> rfl
  | other t v ht hv => exact if_neg ht

theorem key_clean (t : NodeType) :
    charEquals ∉ t.key ∧ charAt t.key 0 ≠ charBlank ∧ t.key ≠ [] := by
  cases t with
  | arg i => revert i; decide +kernel
  | argPath i => revert i; decide +kernel
  | argNamespace i => revert i; decide +kernel
  | argHas i => revert i; decide +kernel
  | _ => decide +kernel

theorem dropWhile_blanks (n : Nat) {k : Str} (hne : k ≠ []) (h : charAt k 0 ≠ charBlank)
    (rest : Str) :
    (List.replicate n charBlank ++ (k ++ rest)).dropWhile (· == charBlank) = k ++ rest := by
  rw [List.dropWhile_append_of_pos fun c hc => beq_iff_eq.mpr (List.eq_of_mem_replicate hc)]
  obtain ⟨c, k, rfl⟩ := List.exists_cons_of_ne_nil hne
  rw [charAt_cons_zero] at h
  rw [List.cons_append, List.dropWhile_cons_of_neg]
  exact fun hc => h (beq_iff_eq.mp hc)

theorem matchTurn_text (n : Nat) (c : RuleComponent) (rest : Str) :
    matchTurn (c.text n ++ rest) = some (.ok (c.kept, charQuote :: rest, true)) := by
  obtain ⟨hequals, hblank, hne⟩ := key_clean c.type
  have hassoc : c.text n ++ rest = List.replicate n charBlank ++ (c.type.key ++
      charEquals :: charQuote :: (matchEscape c.value ++ charQuote :: rest)) := by
    unfold RuleComponent.text
    simp only [List.append_assoc, List.cons_append, List.nil_append]
  have heq : (c.type.key ++ charEquals :: charQuote ::
      (matchEscape c.value ++ charQuote :: rest)).dropWhile (· != charEquals) =
      charEquals :: charQuote :: (matchEscape c.value ++ charQuote :: rest) := by
    rw [List.dropWhile_append_of_pos fun x hx =>
      bne_iff_ne.mpr (ne_of_mem_of_not_mem hx hequals)]
    rfl
  have hlen : ∀ s : Str, (c.type.key ++ s).length - s.length = c.type.key.length := fun s => by
    rw [List.length_append, Nat.add_sub_cancel]
  have hread : readAt (charEquals :: charQuote :: (matchEscape c.value ++ charQuote :: rest)) 1 =
      some charQuote := readAt_of_le (by simp)
  have hgo : advance (charEquals :: charQuote :: (matchEscape c.value ++ charQuote :: rest)) 2 =
      some (matchEscape c.value ++ charQuote :: rest) := advance_of_le (by simp)
  unfold matchTurn
  rw [hassoc, dropWhile_blanks n hne hblank]
  dsimp only
  rw [heq]
  simp only [hlen, nodeType_key, hread, beq_self_eq_true, Bool.toNat_true, Nat.reduceAdd, hgo,
    Option.map_some, matchValue_escape]
  rw [foldl_pushWrap counterSize_pos, matchComponent_kept]
  rfl

/-! ## The rule as a whole -/

theorem ruleText_cons (i j : Nat × RuleComponent) (is : List (Nat × RuleComponent)) :
    ruleText (i :: j :: is) = i.2.text i.1 ++ charComma :: ruleText (j :: is) := by
  unfold ruleText
  rw [List.map_cons, List.map_cons, List.intercalate_cons_cons, List.append_assoc,
    List.singleton_append]

theorem text_ne_nil (n : Nat) (c : RuleComponent) : c.text n ≠ [] := by
  unfold RuleComponent.text
  simp

theorem matchLoop_ruleText (is : List (Nat × RuleComponent)) (fuel : Nat)
    (h : (ruleText is).length < fuel) (acc : List MatchComponent) :
    matchLoop fuel (ruleText is) acc =
      some (.ok ((is.map fun i => i.2.kept).foldl (pushWrap counterSize) acc)) := by
  induction is generalizing fuel acc with
  | nil => cases fuel <;> rfl
  | cons i is ih =>
    obtain ⟨m, rfl⟩ : ∃ m, fuel = m + 1 := ⟨fuel - 1, by omega⟩
    cases is with
    | nil =>
      have hone : ruleText [i] = i.2.text i.1 := List.intercalate_singleton
      have hturn := matchTurn_text i.1 i.2 []
      rw [List.append_nil] at hturn
      rw [hone, matchLoop, if_neg (text_ne_nil _ _), hturn]
      rfl
    | cons j is =>
      have hread : readAt (charQuote :: charComma :: ruleText (j :: is)) 1 = some charComma :=
        readAt_of_le (by simp)
      have hgo : advance (charQuote :: charComma :: ruleText (j :: is)) 2 =
          some (ruleText (j :: is)) := advance_of_le (by simp)
      rw [ruleText_cons] at h ⊢
      rw [List.length_append, List.length_cons] at h
      rw [matchLoop, if_neg (by simp), matchTurn_text]
      simp only [Bool.toNat_true, hread]
      rw [if_neg (by decide), if_neg (by simp)]
      simp only [Nat.reduceAdd, hgo]
      exact ih m (by omega) _

/-! ## The order of the components -/

theorem NodeType.code_injective : Function.Injective NodeType.code := by
  intro s t h
  cases s <;> cases t <;> simp only [NodeType.code] at h <;>
    first | rfl | (exfalso; omega) | (congr 1; apply Fin.ext; omega)

instance : Std.Total matchComponentLE := ⟨fun a b => Nat.le_total a.type.code b.type.code⟩

instance : IsTrans MatchComponent matchComponentLE := ⟨fun _ _ _ => Nat.le_trans⟩

theorem hasDuplicates_iff {l : List MatchComponent} (h : l.Pairwise matchComponentLE) :
    hasDuplicates l = false ↔ l.Pairwise fun a b => a.type.code < b.type.code := by
  induction l with
  | nil => simp [hasDuplicates]
  | cons a l ih =>
    cases l with
    | nil => simp [hasDuplicates]
    | cons b l =>
      obtain ⟨hhead, htail⟩ := List.pairwise_cons.mp h
      rw [hasDuplicates, Bool.or_eq_false_iff, ih htail, List.pairwise_cons (a := a)]
      refine and_congr_left fun hlt => ?_
      rw [beq_eq_false_iff_ne]
      constructor
      · intro hne c hc
        have hab : a.type.code < b.type.code :=
          lt_of_le_of_ne (hhead b List.mem_cons_self) fun h => hne (NodeType.code_injective h)
        rcases List.mem_cons.mp hc with rfl | hc
        · exact hab
        · exact hab.trans ((List.pairwise_cons.mp hlt).1 c hc)
      · exact fun hall heq => absurd (hall b List.mem_cons_self) (by rw [heq]; exact lt_irrefl _)

theorem nodup_iff_of_sorted {l : List MatchComponent} (h : l.Pairwise matchComponentLE) :
    (l.map MatchComponent.type).Nodup ↔ l.Pairwise fun a b => a.type.code < b.type.code := by
  unfold List.Nodup
  rw [List.pairwise_map]
  constructor
  · intro hne
    exact (h.and hne).imp fun hab => lt_of_le_of_ne hab.1 fun h => hab.2 (NodeType.code_injective h)
  · exact fun hlt => hlt.imp fun hab heq => absurd hab (by rw [heq]; exact lt_irrefl _)

theorem kept_type (c : RuleComponent) : c.kept.type = c.type := by
  cases c <;> rfl

theorem kept_types (is : List (Nat × RuleComponent)) :
    (is.map fun i => i.2.kept).map MatchComponent.type = is.map fun i => i.2.type := by
  rw [List.map_map]
  exact List.map_congr_left fun i _ => kept_type i.2

theorem sinceWrap_map {α β : Type} (n : Nat) (f : α → β) (l : List α) :
    sinceWrap n (l.map f) = (sinceWrap n l).map f := by
  unfold sinceWrap
  rw [List.length_map, List.map_drop]

def sortedUnlessRepeated (components : List MatchComponent) : Except Errno (List MatchComponent) :=
  if (components.map MatchComponent.type).Nodup then
    .ok (components.insertionSort matchComponentLE)
  else .error .einval

theorem sorted_unless_repeated (components : List MatchComponent) :
    (if hasDuplicates (components.insertionSort matchComponentLE) then
      (.error .einval : Except Errno (List MatchComponent))
      else .ok (components.insertionSort matchComponentLE)) = sortedUnlessRepeated components := by
  have hsorted := List.pairwise_insertionSort matchComponentLE components
  have hperm := List.perm_insertionSort matchComponentLE components
  have htypes : (components.map MatchComponent.type).Nodup ↔
      hasDuplicates (components.insertionSort matchComponentLE) = false := by
    rw [hasDuplicates_iff hsorted, ← nodup_iff_of_sorted hsorted,
      (hperm.map MatchComponent.type).nodup_iff]
  unfold sortedUnlessRepeated
  cases hdup : hasDuplicates (components.insertionSort matchComponentLE) with
  | false => rw [if_pos (htypes.mpr hdup), if_neg Bool.false_ne_true]
  | true =>
    rw [if_pos rfl, if_neg]
    intro hnodup
    rw [htypes.mp hnodup] at hdup
    cases hdup

theorem busMatchParse_of_loop {rule : Str} {components : List MatchComponent}
    (h : matchLoop (rule.length + 1) rule [] = some (.ok components)) :
    busMatchParse rule = some (sortedUnlessRepeated components) := by
  unfold busMatchParse
  rw [h, ← sorted_unless_repeated]
  rfl

theorem busMatchParse_ruleText (is : List (Nat × RuleComponent)) :
    busMatchParse (ruleText is) =
      some (sortedUnlessRepeated ((sinceWrap counterSize is).map fun i => i.2.kept)) := by
  apply busMatchParse_of_loop
  rw [matchLoop_ruleText is _ (Nat.lt_succ_self _), foldl_pushWrap counterSize_pos, sinceWrap_map]

theorem NodeType.code_lt (t : NodeType) : t.code < 266 := by
  cases t <;> simp only [NodeType.code] <;> omega

theorem length_le_of_nodup {l : List NodeType} (h : l.Nodup) : l.length ≤ 266 := by
  have hcodes : (l.map NodeType.code).Nodup := h.map NodeType.code_injective
  have hsub : l.map NodeType.code ⊆ List.range 266 := by
    intro n hn
    obtain ⟨t, -, rfl⟩ := List.mem_map.mp hn
    exact List.mem_range.mpr t.code_lt
  have hle := (hcodes.subperm hsub).length_le
  rwa [List.length_map, List.length_range] at hle

theorem kept_eq_component {c : RuleComponent} (h : c.value.length < counterSize) :
    c.kept = c.component := by
  cases c with
  | message kind => rfl
  | other t v ht hv =>
    have hv := sinceWrap_of_lt h
    simp only [RuleComponent.kept, RuleComponent.component, RuleComponent.value] at hv ⊢
    rw [hv]

theorem value_lt_of_kept {c d : RuleComponent} (h : d.kept = c.component) :
    c.value.length < counterSize := by
  cases c with
  | message kind => cases kind <;> decide
  | other t v ht hv =>
    cases d with
    | message kind =>
      simp only [RuleComponent.kept, RuleComponent.component, MatchComponent.mk.injEq] at h
      exact absurd h.1.symm ht
    | other u w hu hw =>
      simp only [RuleComponent.kept, RuleComponent.component, MatchComponent.mk.injEq,
        Option.some.injEq] at h
      have hlt := Nat.mod_lt w.length counterSize_pos
      rw [← length_sinceWrap, h.2.2] at hlt
      exact hlt

theorem parse_distinct_iff {is : List (Nat × RuleComponent)} (h : (is.map fun i => i.2.type).Nodup) :
    (∃ l, busMatchParse (ruleText is) = some (.ok l) ∧
        l.Perm (is.map fun i => i.2.component) ∧ l.Pairwise fun a b => a.type.code < b.type.code) ↔
      ∀ i ∈ is, i.2.value.length < counterSize := by
  have hlen : is.length < counterSize := by
    have hle := length_le_of_nodup h
    rw [List.length_map] at hle
    exact lt_of_le_of_lt hle (by decide)
  have hparse : busMatchParse (ruleText is) =
      some (.ok ((is.map fun i => i.2.kept).insertionSort matchComponentLE)) := by
    rw [busMatchParse_ruleText, sinceWrap_of_lt hlen, sortedUnlessRepeated, if_pos (kept_types is ▸ h)]
  have hperm := List.perm_insertionSort matchComponentLE (is.map fun i => i.2.kept)
  have hsorted := List.pairwise_insertionSort matchComponentLE (is.map fun i => i.2.kept)
  constructor
  · rintro ⟨l, hl, hlperm, -⟩ i hi
    rw [hparse] at hl
    obtain rfl := Except.ok.inj (Option.some.inj hl)
    have hmem : i.2.component ∈ is.map fun i => i.2.kept :=
      hperm.subset (hlperm.symm.subset (List.mem_map_of_mem hi))
    obtain ⟨j, -, hj⟩ := List.mem_map.mp hmem
    exact value_lt_of_kept hj
  · intro hshort
    have hkept : is.map (fun i => i.2.kept) = is.map fun i => i.2.component :=
      List.map_congr_left fun i hi => kept_eq_component (hshort i hi)
    refine ⟨_, hparse, hkept ▸ hperm, ?_⟩
    rw [← nodup_iff_of_sorted hsorted, (hperm.map MatchComponent.type).nodup_iff, kept_types]
    exact h

/-- No rule makes the parser read past its end. A rule of components with different keys comes back
as these components, sorted and with their values, exactly if every value is shorter than 2^32
bytes; and one that repeats a key is rejected exactly if those of its components that are left when
the counter of 32 bits has wrapped repeat one. -/
theorem match_parse_exact (is : List (Nat × RuleComponent)) :
    (∀ rule, busMatchParse rule ≠ none) ∧
      ((is.map fun i => i.2.type).Nodup →
        ((∃ l, busMatchParse (ruleText is) = some (.ok l) ∧
            l.Perm (is.map fun i => i.2.component) ∧
            l.Pairwise fun a b => a.type.code < b.type.code) ↔
          ∀ i ∈ is, i.2.value.length < counterSize)) ∧
      (¬(is.map fun i => i.2.type).Nodup →
        ((∃ r, busMatchParse (ruleText is) = some (.error r)) ↔
          ¬((is.drop (is.length / counterSize * counterSize)).map fun i => i.2.type).Nodup)) := by
  refine ⟨fun rule => Option.ne_none_iff_isSome.mpr (busMatchParse_isSome rule),
    parse_distinct_iff, fun _ => ?_⟩
  rw [busMatchParse_ruleText, sortedUnlessRepeated, kept_types]
  split_ifs with hnodup
  · exact ⟨fun ⟨r, hr⟩ => absurd (Option.some.inj hr) nofun, fun hn => absurd hnodup hn⟩
  · exact ⟨fun _ => hnodup, fun _ => ⟨_, rfl⟩⟩

/-- A value of 2^32 bytes does not come back. -/
theorem not_match_parse_exact :
    ¬∀ is : List (Nat × RuleComponent), (is.map fun i => i.2.type).Nodup →
      ∃ l, busMatchParse (ruleText is) = some (.ok l) ∧
        l.Perm (is.map fun i => i.2.component) ∧ l.Pairwise fun a b => a.type.code < b.type.code := by
  intro h
  have hclean : (0 : UInt8) ∉ List.replicate counterSize (97 : UInt8) := fun h0 =>
    absurd (List.eq_of_mem_replicate h0) (by decide)
  have hlen : (List.replicate counterSize (97 : UInt8)).length = counterSize :=
    List.length_replicate
  generalize List.replicate counterSize (97 : UInt8) = v at hclean hlen
  have hdistinct : ([(0, RuleComponent.other .path v (by decide) hclean)].map
      fun i => i.2.type).Nodup := List.nodup_singleton _
  have hshort := (parse_distinct_iff hdistinct).mp (h _ hdistinct) _ (List.mem_singleton_self _)
  exact absurd hshort (not_lt.mpr hlen.ge)

end Basu
