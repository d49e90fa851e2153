import Basu.Message.Fields

/-! Messages under construction. A message comes out of a constructor and goes through setters
and successful append calls in any order; `Draft` is what is known of it at every point. -/

namespace Basu
open Lib

inductive Written (bus : Bus) : List Op → Message → Prop
  | new {type : UInt8} {m : Message} (h : sdBusMessageNew bus type = .ok m) : Written bus [] m
  | newSignal {path interface member : CStr} {m : Message}
      (h : sdBusMessageNewSignal bus path interface member = .ok m) : Written bus [] m
  | newMethodCall {destination interface : Option CStr} {path member : CStr} {m : Message}
      (h : sdBusMessageNewMethodCall bus destination path interface member = .ok m) :
      Written bus [] m
  | newMethodReturn {call : Call} {m : Message}
      (h : sdBusMessageNewMethodReturn bus call = .ok m) : Written bus [] m
  | newMethodError {call : Call} {name : CStr} {message : Option CStr} {m : Message}
      (h : sdBusMessageNewMethodError bus call name message = .ok m) :
      Written bus (message.map fun s => Op.appendBasic (.string (some s))).toList m
  | setDestination {ops : List Op} {m m' : Message} {s : CStr} (w : Written bus ops m)
      (h : sdBusMessageSetDestination m s = .ok m') : Written bus ops m'
  | setSender {ops : List Op} {m m' : Message} {s : CStr} (w : Written bus ops m)
      (h : sdBusMessageSetSender m s = .ok m') : Written bus ops m'
  | setFlag {ops : List Op} {m : Message} (flag : UInt8) (b : Bool) (w : Written bus ops m) :
      Written bus ops (m.setFlag flag b)
  | call {ops : List Op} {op : Op} {m m' : Message} (w : Written bus ops m)
      (h : op.exec m = (.ok (), m')) : Written bus (ops ++ [op]) m'

def Tree.Clean (T : Tree) : Prop :=
  (∀ v ∈ T.root, v.Clean) ∧ ∀ f ∈ T.frames, ∀ v ∈ f.done, v.Clean

def Ty.isDictEntry : Ty → Bool
  | .dictEntry _ _ => true
  | _ => false

def Tree.Rooted (T : Tree) : Prop :=
  (∀ v ∈ T.root, v.ty.isDictEntry = false) ∧
    ∀ f, T.frames.getLast? = some f → f.kind.ty.isDictEntry = false

theorem Tree.Clean.push {T : Tree} {v : Val} (h : T.Clean) (hv : v.Clean) : (T.push v).Clean := by
  cases hf : T.frames with
  | nil =>
    simp only [Tree.push, hf]
    refine ⟨?_, by simp⟩
    simpa [or_imp, forall_and] using ⟨h.1, hv⟩
  | cons f fs =>
    have h2 := h.2
    simp only [hf, List.mem_cons, forall_eq_or_imp] at h2
    simp only [Tree.push, hf]
    refine ⟨h.1, ?_⟩
    simp only [List.mem_cons, forall_eq_or_imp]
    exact ⟨by simpa [or_imp, forall_and] using ⟨h2.1, hv⟩, h2.2⟩

theorem Tree.Rooted.push {T : Tree} {v : Val} (h : T.Rooted)
    (hv : T.frames = [] → v.ty.isDictEntry = false) : (T.push v).Rooted := by
  cases hf : T.frames with
  | nil =>
    simp only [Tree.push, hf]
    refine ⟨?_, by simp⟩
    simpa [or_imp, forall_and] using ⟨h.1, hv hf⟩
  | cons f fs =>
    have h2 := h.2
    rw [hf] at h2
    simp only [Tree.push, hf]
    refine ⟨h.1, fun g hg => ?_⟩
    cases fs with
    | nil =>
      simp only [List.getLast?_singleton, Option.some.injEq] at hg
      rw [← hg]
      exact h2 f (by simp)
    | cons f' fs => exact h2 g (by simpa [List.getLast?_cons_cons] using hg)

theorem Frame.close_clean {f : Frame} (h : ∀ v ∈ f.done, v.Clean) : f.close.Clean := by
  obtain ⟨k, done⟩ := f
  have hall := Val.allClean_iff.mpr h
  unfold Frame.close
  split
  · rw [Val.Clean]
    exact hall
  · rename_i hdone
    rw [hdone] at h
    rw [Val.Clean]
    simpa using h
  · rename_i hdone
    rw [hdone] at h
    rw [Val.Clean]
    simpa [Val.Clean] using h
  · rw [Val.Clean]
    exact hall

theorem Frame.close_isDictEntry {f : Frame} (h : f.kind.ty.isDictEntry = false) :
    f.close.ty.isDictEntry = false := by
  obtain ⟨k, done⟩ := f
  unfold Frame.close
  split
  · rfl
  · rfl
  · rename_i hk _
    simp only at hk
    rw [hk] at h
    exact absurd h (by simp [Kind.ty, Ty.isDictEntry])
  · rfl

theorem BasicArg.val_clean (p : BasicArg) {n : Nat} (hn : n < 256 ^ 4) : (p.val n).Clean := by
  have hs : ∀ q : Option CStr, (0 : UInt8) ∉ strempty (q.map (·.1)) := by
    intro q
    cases q with
    | none => simp [strempty]
    | some s => exact s.2
  cases p with
  | string q => exact hs q
  | objectPath q => exact hs q
  | signature q => exact hs q
  | unixFd _ _ => exact hn
  | other _ _ => simp [BasicArg.val, BasicVal.Clean]
  | _ => trivial

theorem Tree.Step.clean {T T' : Tree} {op : Op} (h : T.Step op T') (hT : T.Clean)
    (hf : T.fds.length < 256 ^ 4) : T'.Clean := by
  cases h with
  | basic p => exact hT.push (v := .basic _) (p.val_clean hf)
  | opened k contents hk =>
    refine ⟨hT.1, ?_⟩
    simp only [List.mem_cons, forall_eq_or_imp]
    exact ⟨by simp, hT.2⟩
  | closed f fs hfs =>
    have h2 := hT.2
    simp only [hfs, List.mem_cons, forall_eq_or_imp] at h2
    exact Tree.Clean.push (T := { T with frames := fs }) ⟨hT.1, h2.2⟩ (f.close_clean h2.1)

theorem WInv.open_root {m m' : Message} {T : Tree} {contents : Str} (inv : WInv m T)
    (hT : T.frames = [])
    (h : sdBusMessageOpenContainer m sdBusTypeDictEntry contents = (.ok (), m')) : False := by
  rcases inv.sigs.current with ⟨hcs, -, h0, -⟩ | ⟨c, cs, f, fs, -, hfs, -⟩
  · have hopen : ∃ r, openByType m sdBusTypeDictEntry contents = (.error r, m) := by
      have henc : (messageGetLastContainer m).enclosing ≠ sdBusTypeArray := by
        rw [messageGetLastContainer_nil hcs, h0]
        decide
      have heq : openByType m sdBusTypeDictEntry contents =
          busMessageOpenDictEntry m (messageGetLastContainer m) contents := rfl
      rw [heq, busMessageOpenDictEntry]
      split_ifs
      · exact ⟨_, rfl⟩
      · exact ⟨_, rfl⟩
    obtain ⟨r, hr⟩ := hopen
    simp only [sdBusMessageOpenContainer, hr] at h
    split_ifs at h <;> exact absurd h (by simp)
  · exact absurd (hT.symm.trans hfs) (by simp)

theorem Tree.Step.rooted {m m' : Message} {T T' : Tree} {op : Op} (inv : WInv m T)
    (hexec : op.exec m = (.ok (), m')) (h : T.Step op T') (hT : T.Rooted) : T'.Rooted := by
  cases h with
  | basic p => exact hT.push (v := .basic _) fun _ => rfl
  | opened k contents hk =>
    refine ⟨hT.1, fun f hf => ?_⟩
    cases hfs : T.frames with
    | nil =>
      simp only [hfs, List.getLast?_singleton, Option.some.injEq] at hf
      subst hf
      cases k with
      | dictEntry b t => exact (inv.open_root hfs hexec).elim
      | _ => rfl
    | cons g gs =>
      rw [hfs, List.getLast?_cons_cons, ← hfs] at hf
      exact hT.2 f hf
  | closed f fs hfs =>
    have h2 := hT.2
    rw [hfs] at h2
    refine Tree.Rooted.push (T := { T with frames := fs }) ⟨hT.1, fun g hg => ?_⟩ fun hnil => ?_
    · cases fs with
      | nil => exact absurd hg (by simp)
      | cons f' fs => exact h2 g (by simpa [List.getLast?_cons_cons] using hg)
    · obtain rfl : fs = [] := hnil
      exact f.close_isDictEntry (h2 f (by simp))

/-- A message that is not sealed, made of these header fields and this tree. The name of an
error is the one field that no call checks. -/
structure Draft (m : Message) (fs : List Field) (T : Tree) : Prop where
  fields : HInv m fs
  valid : ∀ f ∈ fs, f.code ≠ 4 → f.valid = true
  plain : ∀ f ∈ fs, f.code < 8
  body : WInv m T
  clean : T.Clean
  rooted : T.Rooted

theorem WInv.withHeader {m m' : Message} {T : Tree} (inv : WInv m T)
    (h : m' = { m with header := m'.header }) : WInv m' T := by
  rw [h]
  exact ⟨inv.body.congr rfl rfl rfl rfl, inv.sigs, inv.made, inv.fds, inv.fdsSize, inv.limit⟩

theorem WInv.fds_lt {m : Message} {T : Tree} (inv : WInv m T) : T.fds.length < 256 ^ 4 := by
  have h1 := inv.fdsSize
  have h2 := inv.limit
  have h256 : (256 : Nat) ^ 4 = uint32Max + 1 := by decide
  rw [← inv.fds]
  omega

theorem HInv.withFlags {m : Message} {fs : List Field} (inv : HInv m fs) (flags : UInt8) :
    HInv { m with header := { m.header with flags := flags } } fs := by
  refine ⟨inv.bytes, ?_, inv.nodup, inv.clean, inv.size⟩
  have := Header.foldl_congr fs m.header.bare { m.header.bare with flags := flags } rfl
  rw [← inv.header] at this
  exact this.symm

theorem HInv.keep {m m' : Message} {fs : List Field} (inv : HInv m fs)
    (he : m'.endian = m.endian) (hh : m'.header = m.header) : HInv m' fs :=
  ⟨by rw [hh, he]; exact inv.bytes, by rw [hh]; exact inv.header, inv.nodup, inv.clean,
    by rw [hh]; exact inv.size⟩

theorem WInv.exec_kept {m m' : Message} {T : Tree} {op : Op} (inv : WInv m T)
    (h : op.exec m = (.ok (), m')) : Kept m m' := by
  cases op with
  | appendBasic p => exact (messageAppendBasic_ok rfl inv.sigs h).2.2.kept
  | openContainer type contents =>
    obtain ⟨k, a, m₁, -, -, -, hp, rfl⟩ := sdBusMessageOpenContainer_ok contents.2 inv.sigs h
    have := hp.wrote.kept
    exact ⟨this.1, this.2, this.3, this.4, this.5, this.6⟩
  | closeContainer =>
    obtain ⟨c, cs, -, -, rfl⟩ := sdBusMessageCloseContainer_ok h
    exact ⟨rfl, rfl, rfl, rfl, rfl, rfl⟩

theorem WInv.runs_endian {m m' : Message} {T : Tree} {ops : List Op} (inv : WInv m T)
    (h : Runs m ops m') : m'.endian = m.endian := by
  induction h generalizing T with
  | nil m => rfl
  | cons h _ ih =>
    obtain ⟨T₁, -, inv₁, -⟩ := inv.step h
    exact (ih inv₁).trans (inv.exec_kept h).endian

theorem Draft.call {m m' : Message} {fs : List Field} {T : Tree} {op : Op} (d : Draft m fs T)
    (h : op.exec m = (.ok (), m')) : ∃ T', T.Step op T' ∧ Draft m' fs T' := by
  obtain ⟨T', hstep, inv', -⟩ := d.body.step h
  have hk := d.body.exec_kept h
  exact ⟨T', hstep, d.fields.keep hk.endian hk.header, d.valid, d.plain, inv',
    hstep.clean d.clean d.body.fds_lt, hstep.rooted d.body h d.rooted⟩

theorem Draft.addFields {m m' : Message} {fs gs : List Field} {T : Tree} (d : Draft m fs T)
    (hc : ∀ g ∈ gs, g.Clean) (hv : ∀ g ∈ gs, g.code ≠ 4 → g.valid = true)
    (hp : ∀ g ∈ gs, g.code < 8) (hn : ((fs ++ gs).map Field.code).Nodup)
    (h : m.addFields gs = .ok m') : Draft m' (fs ++ gs) T := by
  have happ : ∀ {P : Field → Prop}, (∀ f ∈ fs, P f) → (∀ g ∈ gs, P g) → ∀ f ∈ fs ++ gs, P f := by
    intro P h1 h2 f hf
    exact (List.mem_append.mp hf).elim (h1 f) (h2 f)
  exact ⟨d.fields.addFields hc hn h, happ d.valid hv, happ d.plain hp,
    d.body.withHeader (addFields_frame h).1, d.clean, d.rooted⟩

theorem Draft.addField {m m' : Message} {fs : List Field} {T : Tree} {f : Field}
    (d : Draft m fs T) (hc : f.Clean) (hv : f.code ≠ 4 → f.valid = true) (hp : f.code < 8)
    (hn : f.code ∉ fs.map Field.code) (h : m.addField f = .ok m') : Draft m' (fs ++ [f]) T := by
  have hadd : m.addFields [f] = .ok m' := by simp [Message.addFields, h]
  refine d.addFields (by simpa using hc) (by simpa using hv) (by simpa using hp) ?_ hadd
  rw [List.map_append, List.nodup_append]
  refine ⟨d.fields.nodup, by simp, ?_⟩
  intro a ha b hb hab
  simp only [List.map_cons, List.map_nil, List.mem_singleton] at hb
  exact hn (hb ▸ hab ▸ ha)

theorem Draft.withFlags {m : Message} {fs : List Field} {T : Tree} (d : Draft m fs T)
    (flags : UInt8) : Draft { m with header := { m.header with flags := flags } } fs T :=
  ⟨d.fields.withFlags flags, d.valid, d.plain, d.body.withHeader rfl, d.clean, d.rooted⟩

theorem Draft.new {bus : Bus} {type : UInt8} {m : Message} (h : sdBusMessageNew bus type = .ok m) :
    Draft m [] Tree.empty := by
  unfold sdBusMessageNew at h
  by_cases ht : 5 ≤ type
  · rw [if_pos ht] at h
    exact absurd h (by simp)
  rw [if_neg ht] at h
  obtain rfl := (Except.ok.inj h).symm
  refine ⟨⟨rfl, rfl, by simp, by simp, ?_⟩, by simp, by simp, Message.Fresh.winv ?_, ?_, ?_⟩
  · change busHeaderSize + 0 ≤ uint32Max
    decide
  · exact ⟨rfl, rfl, rfl, rfl, rfl⟩
  · exact ⟨by simp [Tree.empty], by simp [Tree.empty]⟩
  · exact ⟨by simp [Tree.empty], by simp [Tree.empty]⟩

theorem Draft.newSignal {bus : Bus} {path interface member : CStr} {m : Message}
    (h : sdBusMessageNewSignal bus path interface member = .ok m) :
    ∃ fs, Draft m fs Tree.empty := by
  unfold sdBusMessageNewSignal at h
  split_ifs at h with h1 h2 h3
  split at h
  · exact absurd h (by simp)
  · rename_i m₀ hm₀
    refine ⟨_, ((Draft.new hm₀).withFlags _).addFields ?_ ?_ ?_ ?_ h⟩
    · simpa [Field.Clean] using ⟨path.2, interface.2, member.2⟩
    · simp only [Bool.not_eq_false] at h1 h2 h3
      simp [Field.valid, h1, h2, h3]
    · simp [Field.code]
    · simp [Field.code]

theorem Draft.newMethodCall {bus : Bus} {destination interface : Option CStr}
    {path member : CStr} {m : Message}
    (h : sdBusMessageNewMethodCall bus destination path interface member = .ok m) :
    ∃ fs, Draft m fs Tree.empty := by
  unfold sdBusMessageNewMethodCall at h
  split_ifs at h with h1 h2 h3 h4
  simp only [Bool.not_eq_false] at h2 h4
  split at h
  · exact absurd h (by simp)
  · rename_i m₀ hm₀
    refine ⟨_, (Draft.new hm₀).addFields ?_ ?_ ?_ ?_ h⟩
    · have hz : ∀ s : CStr, (0 : UInt8) ∉ s.1 := fun s => s.2
      cases interface <;> cases destination <;> simp [Field.Clean, hz]
    · cases interface <;> cases destination <;> simp_all [Field.valid]
    · cases interface <;> cases destination <;> simp [Field.code]
    · cases interface <;> cases destination <;> simp [Field.code]

theorem replySerial_le {m m' : Message} {x : Nat} {gs : List Field}
    (h : m.addFields (.replySerial x :: gs) = .ok m') : x ≤ uint32Max := by
  by_contra hx
  simp only [Message.addFields, Message.addField, messageAppendReplyCookie,
    if_pos (show uint32Max < x by omega), Except.map] at h
  exact absurd h (by simp)

theorem Draft.newReply {bus : Bus} {call : Call} {type : UInt8} {m : Message}
    (h : messageNewReply bus call type = .ok m) :
    ∃ fs, Draft m fs Tree.empty ∧ ∀ f ∈ fs, f.code ≠ 4 := by
  unfold messageNewReply at h
  split_ifs at h with h1
  split at h
  · exact absurd h (by simp)
  · rename_i m₀ hm₀
    cases hadd : (m₀.orFlags busMessageNoReplyExpected).addFields (.replySerial call.cookie ::
        (call.sender.map fun s => Field.destination s.1).toList) with
    | error r => rw [hadd] at h; exact absurd h (by simp [Except.map])
    | ok m₁ =>
      rw [hadd] at h
      obtain rfl := (Except.ok.inj h).symm
      have hle := replySerial_le hadd
      have h256 : (256 : Nat) ^ 4 = uint32Max + 1 := by decide
      have hsender := call.senderValid
      have d := ((Draft.new hm₀).withFlags _).addFields ?_ ?_ ?_ ?_ hadd
      · refine ⟨_, ⟨d.fields.keep rfl rfl, d.valid, d.plain, ?_, d.clean, d.rooted⟩, ?_⟩
        · exact ⟨d.body.body.congr rfl rfl rfl rfl, d.body.sigs, d.body.made, d.body.fds,
            d.body.fdsSize, d.body.limit⟩
        · cases call.sender <;> simp [Field.code]
      · have hcookie : call.cookie < 256 ^ 4 := by omega
        have hz : ∀ s : CStr, (0 : UInt8) ∉ s.1 := fun s => s.2
        cases call.sender <;> simpa [Field.Clean, hz] using hcookie
      · cases hs : call.sender with
        | none => simp [Field.valid, h1]
        | some s => simp [Field.valid, h1, hsender s hs]
      · cases call.sender <;> simp [Field.code]
      · cases call.sender <;> simp [Field.code]

theorem Draft.newMethodError {bus : Bus} {call : Call} {name : CStr} {message : Option CStr}
    {m : Message} (h : sdBusMessageNewMethodError bus call name message = .ok m) :
    ∃ fs T, Draft m fs T ∧
      Tree.empty.Steps (message.map fun s => Op.appendBasic (.string (some s))).toList T := by
  simp only [sdBusMessageNewMethodError, newMethodErrorHeader] at h
  split at h
  · exact absurd h (by simp)
  · rename_i m₁ hm₁
    split at hm₁
    · exact absurd hm₁ (by simp)
    · rename_i m₀ hm₀
      obtain ⟨fs, d₀, hne⟩ := Draft.newReply hm₀
      have d₁ := d₀.addField (f := .errorName name.1) name.2 (fun hc => absurd rfl hc)
        (by simp [Field.code])
        (fun hmem => by
          obtain ⟨f, hf, hcode⟩ := List.mem_map.mp hmem
          exact hne f hf hcode) hm₁
      cases message with
      | none =>
        obtain rfl := Except.ok.inj h
        exact ⟨_, _, d₁, .nil _⟩
      | some s =>
        simp only at h
        split at h
        · exact absurd h (by simp)
        · rename_i m₂ hm₂
          obtain rfl := Except.ok.inj h
          have hexec : (Op.appendBasic (.string (some s))).exec m₁ = (.ok (), m₂) := hm₂
          obtain ⟨T, hstep, d₂⟩ := d₁.call hexec
          exact ⟨_, T, d₂, .cons hstep (.nil _)⟩

theorem Header.foldl_set (h : Header) (fs : List Field) :
    ((fs.foldl Header.add h).destination = none → h.destination = none ∧
      (6 : UInt8) ∉ fs.map Field.code) ∧
    ((fs.foldl Header.add h).sender = none → h.sender = none ∧ (7 : UInt8) ∉ fs.map Field.code) := by
  induction fs generalizing h with
  | nil => simp
  | cons f fs ih =>
    rw [List.foldl_cons]
    obtain ⟨ih1, ih2⟩ := ih (h.add f)
    refine ⟨fun hd => ?_, fun hd => ?_⟩
    · obtain ⟨h1, h2⟩ := ih1 hd
      rw [List.map_cons, List.mem_cons, not_or]
      cases f with
      | destination s => exact absurd h1 (by simp [Header.add])
      | _ => exact ⟨h1, by simp [Field.code], h2⟩
    · obtain ⟨h1, h2⟩ := ih2 hd
      rw [List.map_cons, List.mem_cons, not_or]
      cases f with
      | sender s => exact absurd h1 (by simp [Header.add])
      | _ => exact ⟨h1, by simp [Field.code], h2⟩

theorem Draft.setDestination {m m' : Message} {fs : List Field} {T : Tree} {s : CStr}
    (d : Draft m fs T) (h : sdBusMessageSetDestination m s = .ok m') :
    Draft m' (fs ++ [.destination s.1]) T := by
  unfold sdBusMessageSetDestination at h
  split_ifs at h with h1 h2 h3
  have hnone : m.header.destination = none := by simpa using h3
  rw [d.fields.header] at hnone
  exact d.addField s.2 (fun _ => by simpa [Field.valid] using h1) (by simp [Field.code])
    ((Header.foldl_set _ _).1 hnone).2 h

theorem Draft.setSender {m m' : Message} {fs : List Field} {T : Tree} {s : CStr}
    (d : Draft m fs T) (h : sdBusMessageSetSender m s = .ok m') :
    Draft m' (fs ++ [.sender s.1]) T := by
  unfold sdBusMessageSetSender at h
  split_ifs at h with h1 h2 h3
  have hnone : m.header.sender = none := by simpa using h3
  rw [d.fields.header] at hnone
  exact d.addField s.2 (fun _ => by simpa [Field.valid] using h1) (by simp [Field.code])
    ((Header.foldl_set _ _).2 hnone).2 h

theorem Tree.Steps.snoc {T T₁ T₂ : Tree} {ops : List Op} {op : Op} (h : T.Steps ops T₁)
    (h' : T₁.Step op T₂) : T.Steps (ops ++ [op]) T₂ := by
  induction h with
  | nil T => exact .cons h' (.nil _)
  | cons h _ ih => exact .cons h (ih h')

theorem Written.draft {bus : Bus} {ops : List Op} {m : Message} (w : Written bus ops m) :
    ∃ fs T, Draft m fs T ∧ Tree.empty.Steps ops T := by
  induction w with
  | new h => exact ⟨_, _, Draft.new h, .nil _⟩
  | newSignal h =>
    obtain ⟨fs, d⟩ := Draft.newSignal h
    exact ⟨fs, _, d, .nil _⟩
  | newMethodCall h =>
    obtain ⟨fs, d⟩ := Draft.newMethodCall h
    exact ⟨fs, _, d, .nil _⟩
  | newMethodReturn h =>
    obtain ⟨fs, d, -⟩ := Draft.newReply h
    exact ⟨fs, _, d, .nil _⟩
  | newMethodError h => exact Draft.newMethodError h
  | setDestination _ h ih =>
    obtain ⟨fs, T, d, hs⟩ := ih
    exact ⟨_, T, d.setDestination h, hs⟩
  | setSender _ h ih =>
    obtain ⟨fs, T, d, hs⟩ := ih
    exact ⟨_, T, d.setSender h, hs⟩
  | setFlag flag b _ ih =>
    obtain ⟨fs, T, d, hs⟩ := ih
    exact ⟨fs, T, d.withFlags _, hs⟩
  | call _ h ih =>
    obtain ⟨fs, T, d, hs⟩ := ih
    obtain ⟨T', hstep, d'⟩ := d.call h
    exact ⟨fs, T', d', hs.snoc hstep⟩

end Basu
