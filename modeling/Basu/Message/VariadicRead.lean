import Basu.Message.Copy
import Basu.Message.Variadic

/-! What `sd_bus_message_appendv` has written, `sd_bus_message_readv` reads with the same type
string, counts and variant signatures. -/

namespace Basu
open Lib

mutual

def VaTree.fds : VaTree → List Nat
  | .basic b a => ((b.arg a).map BasicArg.fds).getD []
  | .container _ xs => VaTree.fdsAll xs

def VaTree.fdsAll : List VaTree → List Nat
  | [] => []
  | x :: xs => x.fds ++ VaTree.fdsAll xs

end

mutual

/-- The value of the arguments, when `n` descriptors come before them. -/
def VaTree.val (n : Nat) : VaTree → Val
  | .basic b a => .basic (((b.arg a).map (BasicArg.val n)).getD (.string []))
  | .container k xs => (Frame.mk k (VaTree.vals n xs)).close

def VaTree.vals (n : Nat) : List VaTree → List Val
  | [] => []
  | x :: xs => x.val n :: VaTree.vals (n + x.fds.length) xs

end

theorem Tree.push_withFds (T : Tree) (fds : List Nat) (v : Val) :
    Tree.push { T with fds := fds } v = { T.push v with fds := fds } := by
  obtain ⟨root, frames, fds'⟩ := T
  cases frames <;> rfl

theorem Tree.pushAll_withFds (T : Tree) (fds : List Nat) (vs : List Val) :
    Tree.pushAll { T with fds := fds } vs = { T.pushAll vs with fds := fds } := by
  induction vs generalizing T with
  | nil => rfl
  | cons v vs ih =>
    rw [Tree.pushAll, List.foldl_cons, Tree.push_withFds]
    exact ih (T.push v)

theorem VaTree.steps_all {xs : List VaTree}
    (hxs : ∀ x ∈ xs, x.Typed → ∀ T : Tree,
      T.Steps x.ops { T.push (x.val T.fds.length) with fds := T.fds ++ x.fds })
    (h : VaTree.AllTyped xs) (T : Tree) :
    T.Steps (VaTree.opsAll xs)
      { T.pushAll (VaTree.vals T.fds.length xs) with fds := T.fds ++ VaTree.fdsAll xs } := by
  induction xs generalizing T with
  | nil =>
    rw [opsAll, vals, fdsAll, List.append_nil]
    exact .nil T
  | cons x xs ih =>
    rw [AllTyped] at h
    have hx := hxs x List.mem_cons_self h.1 T
    have hrest := ih (fun y hy => hxs y (List.mem_cons_of_mem _ hy)) h.2
      { T.push (x.val T.fds.length) with fds := T.fds ++ x.fds }
    rw [Tree.pushAll_withFds, List.length_append] at hrest
    rw [opsAll, vals, fdsAll, ← List.append_assoc]
    exact hx.append hrest

theorem VaTree.steps (x : VaTree) (h : x.Typed) (hm : x.Matches) (T : Tree) :
    T.Steps x.ops { T.push (x.val T.fds.length) with fds := T.fds ++ x.fds } := by
  induction x using VaTree.induct generalizing T with
  | basic b a =>
    rw [Typed] at h
    obtain ⟨p, hp⟩ := Option.isSome_iff_exists.mp h
    rw [ops, val, fds, hp]
    exact .cons (.basic T p) (.nil _)
  | container k xs ih =>
    rw [Typed] at h
    rw [Matches] at hm
    rw [ops, val, fds]
    have hopen := Tree.Step.opened T k ⟨k.contents, k.zero_notMem_contents⟩ rfl
    have hin := VaTree.steps_all (fun x hx ht => ih x hx ht (VaTree.allMatch_iff.mp hm.2 x hx)) h
      { T with frames := ⟨k, []⟩ :: T.frames }
    rw [Tree.pushAll_frame, List.nil_append] at hin
    have hclose := Tree.Step.closed
      { T with
        frames := ⟨k, VaTree.vals T.fds.length xs⟩ :: T.frames
        fds := T.fds ++ VaTree.fdsAll xs } _ T.frames rfl
    rw [← Tree.push_withFds]
    exact .cons hopen (hin.append (.cons hclose (.nil _)))

theorem BasicArg.val_type {b : Basic} {a : VaArg} {p : BasicArg} (h : b.arg a = some p) (n : Nat) :
    (p.val n).type = b := by
  rcases b with (t | _) <;> cases a <;> (try cases t) <;>
    simp only [Basic.arg, reduceCtorEq, Option.some.injEq] at h <;> subst h <;> rfl

theorem Kind.Holds.close {k : Kind} {vs : List Val} (h : k.Holds (Val.tys vs)) :
    (Frame.mk k vs).close.Holds k vs := by
  cases k with
  | array t => exact .array t vs
  | variant t =>
    obtain ⟨ht, -⟩ := h
    obtain ⟨v, rfl⟩ : ∃ v, vs = [v] := by
      rw [Val.tys_eq_map, List.map_eq_singleton_iff] at ht
      obtain ⟨v, hv, -⟩ := ht
      exact ⟨v, hv⟩
    obtain rfl : v.ty = t := by simpa [Val.tys] using ht
    exact .variant v
  | struct ts =>
    obtain rfl : Val.tys vs = ts := h
    exact .struct vs
  | dictEntry b t =>
    have ht : Val.tys vs = [.basic b, t] := h
    obtain ⟨x, v, rfl⟩ : ∃ x v, vs = [x, v] :=
      List.length_eq_two.mp (by simpa [Val.tys_eq_map] using congrArg List.length ht)
    cases x with
    | basic c =>
      simp only [Val.tys, Val.ty, List.cons.injEq, Ty.basic.injEq, and_true] at ht
      obtain ⟨rfl, rfl⟩ := ht
      exact .dictEntry c v
    | _ => simp [Val.tys, Val.ty] at ht

theorem VaTree.vals_ty {xs : List VaTree} (hxs : ∀ x ∈ xs, x.Typed → ∀ n, (x.val n).ty = x.ty)
    (h : VaTree.AllTyped xs) (n : Nat) : Val.tys (VaTree.vals n xs) = VaTree.tys xs := by
  induction xs generalizing n with
  | nil => rfl
  | cons x xs ih =>
    rw [AllTyped] at h
    rw [vals, Val.tys, hxs x List.mem_cons_self h.1,
      ih (fun y hy => hxs y (List.mem_cons_of_mem _ hy)) h.2]
    rfl

theorem VaTree.val_ty (x : VaTree) (h : x.Typed) (hm : x.Matches) (n : Nat) :
    (x.val n).ty = x.ty := by
  induction x using VaTree.induct generalizing n with
  | basic b a =>
    rw [Typed] at h
    obtain ⟨p, hp⟩ := Option.isSome_iff_exists.mp h
    rw [val, hp, Option.map_some, Option.getD_some, Val.ty, BasicArg.val_type hp]
    rfl
  | container k xs ih =>
    rw [Typed] at h
    rw [Matches] at hm
    have htys := VaTree.vals_ty (fun x hx ht => ih x hx ht (VaTree.allMatch_iff.mp hm.2 x hx)) h n
    rw [val, (Kind.Holds.close (htys ▸ hm.1)).ty]
    rfl

theorem VaTree.holds {k : Kind} {xs : List VaTree} (h : VaTree.AllTyped xs)
    (hm : (VaTree.container k xs).Matches) (n : Nat) :
    ((VaTree.container k xs).val n).Holds k (VaTree.vals n xs) := by
  rw [Matches] at hm
  have htys := VaTree.vals_ty
    (fun x hx ht => x.val_ty ht (VaTree.allMatch_iff.mp hm.2 x hx)) h n
  rw [val]
  exact Kind.Holds.close (htys ▸ hm.1)

mutual

def Val.leaves (fds : List Nat) : Val → List BasicVal
  | .basic v => [v.resolve fds]
  | .variant v => v.leaves fds
  | .array _ vs => Val.leavesAll fds vs
  | .struct vs => Val.leavesAll fds vs
  | .dictEntry k v => k.resolve fds :: v.leaves fds

def Val.leavesAll (fds : List Nat) : List Val → List BasicVal
  | [] => []
  | v :: vs => v.leaves fds ++ Val.leavesAll fds vs

end

theorem Val.Holds.leaves {v : Val} {k : Kind} {vs : List Val} (h : v.Holds k vs)
    (fds : List Nat) : v.leaves fds = Val.leavesAll fds vs := by
  cases h <;> simp [Val.leaves, Val.leavesAll]

mutual

def VaTree.pointers : VaTree → VaTree
  | .basic b _ => .basic b .pointer
  | .container k xs => .container k (VaTree.pointersAll xs)

def VaTree.pointersAll : List VaTree → List VaTree
  | [] => []
  | x :: xs => x.pointers :: VaTree.pointersAll xs

end

theorem readCodec_walkAll {xs : List VaTree} {n : Nat}
    (hxs : ∀ x ∈ xs, x.Typed → ∀ n first (m : Received) out after, Comes m (x.val n) →
      m.body.length ≤ uint32Max →
      (x.val n).Readable m.endian m.fds.length m.rindex m.containers.length →
      readCodec.walk first ⟨m, out⟩ x.pointers after =
        some (.go ⟨m.moved (m.rindex + ((x.val n).enc m.endian m.rindex).length)
          (x.val n).ty.sig.length, out ++ (x.val n).leaves m.fds⟩))
    (ht : VaTree.AllTyped xs) (first : Bool) {m : Received} (out : List BasicVal)
    (after : List VaArg) (h : ComeAll m (VaTree.vals n xs)) (hb : m.body.length ≤ uint32Max)
    (hr : Val.AllReadable m.endian m.fds.length (VaTree.vals n xs) m.rindex m.containers.length) :
    readCodec.walkAll first ⟨m, out⟩ (VaTree.pointersAll xs) after =
      some (.go ⟨m.behind (VaTree.vals n xs), out ++ Val.leavesAll m.fds (VaTree.vals n xs)⟩) := by
  induction xs generalizing n first m out with
  | nil =>
    rw [VaTree.vals, Received.behind_nil, Val.leavesAll, List.append_nil]
    rfl
  | cons x xs ih =>
    rw [VaTree.AllTyped] at ht
    rw [VaTree.vals] at h hr ⊢
    obtain ⟨hcome, hrest⟩ := h.cons
    obtain ⟨he, hbody, hfds, hlen, -⟩ := m.moved_frame
      (m.rindex + ((x.val n).enc m.endian m.rindex).length) (x.val n).ty.sig.length
    have hri := m.moved_rindex
      (m.rindex + ((x.val n).enc m.endian m.rindex).length) (x.val n).ty.sig.length
    rw [Val.AllReadable] at hr
    rw [VaTree.pointersAll, Codec.walkAll,
      hxs x List.mem_cons_self ht.1 n first m out _ hcome hb hr.1]
    simp only
    rw [ih (fun y hy => hxs y (List.mem_cons_of_mem _ hy)) ht.2 false _ hrest
      (by rw [hbody]; exact hb) (by rw [he, hfds, hri, hlen]; exact hr.2), Received.behind_cons,
      hfds, Val.leavesAll, List.append_assoc]

theorem readCodec_open {m m₁ : Received} {out : List BasicVal} {type : UInt8} {contents : Str}
    (h : sdBusMessageEnterContainer m type contents = .ok (true, m₁)) :
    readCodec.openContainer ⟨m, out⟩ type contents = .ok ⟨m₁, out⟩ := by
  simp only [readCodec, h]

theorem readCodec_close {m m₁ : Received} {out : List BasicVal}
    (h : sdBusMessageExitContainer m = .ok m₁) :
    readCodec.closeContainer ⟨m, out⟩ = .ok ⟨m₁, out⟩ := by
  simp only [readCodec, h]

theorem readCodec_walk (x : VaTree) (ht : x.Typed) (hm : x.Matches) (n : Nat) (first : Bool)
    (m : Received) (out : List BasicVal) (after : List VaArg) (h : Comes m (x.val n))
    (hb : m.body.length ≤ uint32Max)
    (hr : (x.val n).Readable m.endian m.fds.length m.rindex m.containers.length) :
    readCodec.walk first ⟨m, out⟩ x.pointers after =
      some (.go ⟨m.moved (m.rindex + ((x.val n).enc m.endian m.rindex).length)
        (x.val n).ty.sig.length, out ++ (x.val n).leaves m.fds⟩) := by
  induction x using VaTree.induct generalizing n first m out after with
  | basic b a =>
    have hval := (VaTree.basic b a).val_ty ht hm n
    have hnext := h.next
    have hst := h.stands
    have hcl := h.clean
    rw [VaTree.val] at hval hnext hst hcl hr ⊢
    generalize ((b.arg a).map (BasicArg.val n)).getD (.string []) = v at hval hnext hst hcl hr ⊢
    rw [Val.ty] at hnext hval
    rw [Val.Stands] at hst
    rw [Val.Clean] at hcl
    rw [Val.Readable] at hr
    obtain rfl : v.type = b := by
      simpa [VaTree.ty] using hval
    rw [VaTree.pointers, Codec.walk, Val.enc, Val.ty, Ty.sig, Val.leaves]
    simp only [readCodec, readBasic_next hnext, readBasicValue_at hst hcl hb hr]
    rfl
  | container k xs ih =>
    have hmc := hm
    rw [VaTree.Typed] at ht
    rw [VaTree.Matches] at hm
    have hold := VaTree.holds ht hmc n
    generalize (VaTree.container k xs).val n = v at hold h hr ⊢
    obtain ⟨hd, hl, hall⟩ := (hold.readable _ _ _ _).mp hr
    obtain ⟨-, he⟩ := h.enter hold hb hl
    obtain ⟨hfe, hfb, hff, hfr, hfl⟩ := m.enter_frame k.enclosing k.contents
      (k.entered m.rindex (Val.encs m.endian (VaTree.vals n xs) (k.start m.rindex)).length)
    have hmade : v.Made := h.made
    have hin := readCodec_walkAll (n := n)
      (fun x hx ht => ih x hx ht (VaTree.allMatch_iff.mp hm.2 x hx)) ht false out after
      (h.contents hold hl) (by rw [hfb]; exact hb)
      (by rw [hfe, hff, hfr, hfl]; exact hall)
    have hopen : sdBusMessageEnterContainer m k.enclosing k.contents = .ok (true,
        m.enter k.enclosing k.contents (k.entered m.rindex
          (Val.encs m.endian (VaTree.vals n xs) (k.start m.rindex)).length)) := by
      rw [enterContainer_next h.next k.enclosing_ne_zero, if_neg (by omega), he]
      rfl
    have hexit := Comes.exit (m := m) hold hmade
    rw [VaTree.pointers, Codec.walk, hold.leaves, readCodec_open hopen]
    simp only [CallResult.traversed]
    rw [hin]
    simp only
    rw [readCodec_close hexit, hff]

mutual

theorem VaTree.pointers_same : ∀ x : VaTree, x.pointers.ty = x.ty ∧
    (x.Matches → x.pointers.Matches) ∧ x.pointers.depth = x.depth ∧ x.pointers.turns = x.turns
  | .basic b a => by
    rw [pointers]
    exact ⟨rfl, fun _ => by rw [Matches]; trivial, by rw [depth, depth], by rw [turns, turns]⟩
  | .container k xs => by
    obtain ⟨htys, hm, hd, hn⟩ := VaTree.pointersAll_same xs
    rw [pointers, Matches, Matches, htys, depth, depth, turns, turns, hd, hn]
    exact ⟨rfl, fun h => ⟨h.1, hm h.2⟩, rfl, rfl⟩

theorem VaTree.pointersAll_same : ∀ xs : List VaTree,
    VaTree.tys (VaTree.pointersAll xs) = VaTree.tys xs ∧
    (VaTree.AllMatch xs → VaTree.AllMatch (VaTree.pointersAll xs)) ∧
    VaTree.depthAll (VaTree.pointersAll xs) = VaTree.depthAll xs ∧
    VaTree.turnsAll (VaTree.pointersAll xs) = VaTree.turnsAll xs
  | [] => ⟨rfl, id, rfl, rfl⟩
  | x :: xs => by
    obtain ⟨hty, hm, hd, hn⟩ := VaTree.pointers_same x
    obtain ⟨htys, hms, hds, hns⟩ := VaTree.pointersAll_same xs
    rw [pointersAll, AllMatch, AllMatch, depthAll, depthAll, turnsAll, turnsAll, hd, hn, hds, hns]
    refine ⟨?_, fun h => ⟨hm h.1, hms h.2⟩, rfl, rfl⟩
    simp only [tys, List.map_cons] at htys ⊢
    rw [hty, htys]

end

mutual

def VaTree.plain : VaTree → Bool
  | .basic _ _ => true
  | .container (.variant _) _ => false
  | .container _ xs => VaTree.allPlain xs

def VaTree.allPlain : List VaTree → Bool
  | [] => true
  | x :: xs => x.plain && VaTree.allPlain xs

end

theorem VaTree.allPlain_iff {xs : List VaTree} :
    VaTree.allPlain xs = true ↔ ∀ x ∈ xs, x.plain = true := by
  induction xs with
  | nil => simp [allPlain]
  | cons x xs ih => simp [allPlain, ih]

theorem VaTree.depthAll_le {xs : List VaTree} {n : Nat} (h : ∀ x ∈ xs, x.depth ≤ n) :
    VaTree.depthAll xs ≤ n := by
  induction xs with
  | nil => exact Nat.zero_le n
  | cons x xs ih =>
    rw [depthAll]
    exact Nat.max_le.mpr ⟨h x List.mem_cons_self, ih fun y hy => h y (List.mem_cons_of_mem _ hy)⟩

theorem VaTree.depth_le (x : VaTree) {allow : Bool} {a d : Nat} (hfit : x.ty.Fits allow a d)
    (hm : x.Matches) (hp : x.plain = true) (ha : a ≤ maxDepth) (hd : d ≤ maxDepth) :
    x.depth + a + d ≤ 2 * maxDepth := by
  induction x using VaTree.induct generalizing allow a d with
  | basic b c =>
    rw [depth]
    omega
  | container k xs ih =>
    rw [Matches] at hm
    have hall := VaTree.allMatch_iff.mp hm.2
    -- inside, one of the two depths is one more
    have hin : ∀ a' d', a' + d' = a + d + 1 → a' ≤ maxDepth → d' ≤ maxDepth →
        (∀ u ∈ VaTree.tys xs, ∃ allow, u.Fits allow a' d') → VaTree.allPlain xs = true →
        VaTree.depthAll xs + 1 + a + d ≤ 2 * maxDepth := by
      intro a' d' hsum ha' hd' hfits hplain
      have hle : VaTree.depthAll xs ≤ 2 * maxDepth - (a' + d') := by
        refine VaTree.depthAll_le fun x hx => ?_
        obtain ⟨allow, hf⟩ := hfits x.ty (List.mem_map_of_mem hx)
        have := ih x hx hf (hall x hx) (VaTree.allPlain_iff.mp hplain x hx) ha' hd'
        omega
      omega
    rw [depth]
    cases k with
    | variant t => exact absurd hp (by simp [plain])
    | array t =>
      rw [ty, Kind.ty, Ty.Fits] at hfit
      rw [plain] at hp
      · exact hin (a + 1) d (by omega) hfit.1 hd
          (fun u hu => ⟨true, by rw [hm.1.1 u hu]; exact hfit.2⟩) hp
      · simp
    | struct ts =>
      rw [ty, Kind.ty, Ty.Fits] at hfit
      rw [plain] at hp
      · refine hin a (d + 1) (by omega) ha hfit.1 (fun u hu => ⟨false, ?_⟩) hp
        have hts : VaTree.tys xs = ts := hm.1
        exact Ty.allFit_iff.mp hfit.2.2 u (hts ▸ hu)
      · simp
    | dictEntry b t =>
      rw [ty, Kind.ty, Ty.Fits] at hfit
      rw [plain] at hp
      · refine hin a (d + 1) (by omega) ha hfit.2.1 (fun u hu => ⟨false, ?_⟩) hp
        have hts : VaTree.tys xs = [.basic b, t] := hm.1
        rw [hts] at hu
        rcases List.mem_cons.mp hu with rfl | hu
        · rw [Ty.Fits]
          trivial
        · rw [List.mem_singleton.mp hu]
          exact hfit.2.2
      · simp

def VaTree.types (xs : List VaTree) : CStr :=
  ⟨Ty.sigs (VaTree.tys xs), Ty.zero_notMem_sigs (VaTree.tys xs)⟩

structure VaTree.Valid (xs : List VaTree) : Prop where
  types : signatureIsValid (VaTree.types xs).1 false = true
  contents : VaTree.AllMatch xs
  typed : VaTree.AllTyped xs
  depth : VaTree.depthAll xs ≤ busContainerDepth ∨ VaTree.allPlain xs = true

theorem VaTree.Valid.fits {xs : List VaTree} (h : VaTree.Valid xs) :
    ∀ u ∈ VaTree.tys xs, u.Fits false 0 0 := by
  obtain ⟨ts, hts, hfit, -⟩ := (signatureIsValid_iff (VaTree.types xs).2 false).mp h.types
  obtain rfl := Ty.sigs_injective hts
  exact hfit

theorem VaTree.Valid.fits' {xs : List VaTree} (h : VaTree.Valid xs) :
    ∀ u ∈ VaTree.tys xs, u.Fits true 0 0 := fun u hu =>
  (h.fits u hu).mono (by simp) (Nat.le_refl 0) (Nat.le_refl 0)

theorem VaTree.Valid.depth_le {xs : List VaTree} (h : VaTree.Valid xs) :
    VaTree.depthAll xs ≤ busContainerDepth := by
  rcases h.depth with hd | hp
  · exact hd
  · refine VaTree.depthAll_le fun x hx => ?_
    have hle := x.depth_le (h.fits x.ty (List.mem_map_of_mem hx))
      (VaTree.allMatch_iff.mp h.contents x hx) (VaTree.allPlain_iff.mp hp x hx)
      (Nat.zero_le _) (Nat.zero_le _)
    exact hle.trans (by decide)

def appendRecursive (m : Message) (xs : List VaTree) : Except Errno Unit × Message :=
  if m.sealed then (.error .eperm, m)
  else if m.poisoned then (.error .estale, m)
  else execAll m (VaTree.opsAll xs)

theorem sdBusMessageAppendv_eq {xs : List VaTree} (h : VaTree.Valid xs) (m : Message)
    (after : List VaArg) {fuel : Nat} (hfuel : VaTree.turnsAll xs < fuel) :
    ∃ ap, sdBusMessageAppendv fuel m (VaTree.types xs) (VaTree.argsAll xs ++ after) =
        some ((appendRecursive m xs).1.map (fun _ => 1), (appendRecursive m xs).2, ap) ∧
      ((appendRecursive m xs).1 = .ok () → ap = after) := by
  unfold sdBusMessageAppendv appendRecursive
  split_ifs
  · exact ⟨_, rfl, fun h => absurd h (by simp)⟩
  · exact ⟨_, rfl, fun h => absurd h (by simp)⟩
  · exact appendCodec_run h.fits' h.contents h.typed h.depth_le m after hfuel

theorem runs_of_execAll {m m' : Message} {ops : List Op} (h : execAll m ops = (.ok (), m')) :
    Runs m ops m' := by
  induction ops generalizing m with
  | nil =>
    obtain rfl : m = m' := (Prod.mk.inj h).2
    exact .nil m
  | cons op ops ih =>
    rw [execAll] at h
    split at h
    · exact absurd (Prod.mk.inj h).1 (by simp)
    · rename_i m₁ hexec
      exact .cons hexec (ih h)

theorem execAll_of_runs {m m' : Message} {ops : List Op} (h : Runs m ops m') :
    execAll m ops = (.ok (), m') := by
  induction h with
  | nil m => rfl
  | cons h _ ih =>
    rw [execAll, h]
    exact ih

theorem VaTree.steps_values {xs : List VaTree} (h : VaTree.Valid xs) :
    Tree.empty.Steps (VaTree.opsAll xs) ⟨VaTree.vals 0 xs, [], VaTree.fdsAll xs⟩ := by
  have hsteps := VaTree.steps_all
    (fun x hx ht => x.steps ht (VaTree.allMatch_iff.mp h.contents x hx)) h.typed Tree.empty
  rw [show Tree.empty = ⟨[], [], []⟩ from rfl, Tree.pushAll_root, List.nil_append,
    List.nil_append] at hsteps
  exact hsteps

theorem sdBusMessageReadv_eq {xs : List VaTree} (h : VaTree.Valid xs) {m : Received}
    (hcome : ComeAll m (VaTree.vals 0 xs)) (hb : m.body.length ≤ uint32Max)
    (hr : Val.AllReadable m.endian m.fds.length (VaTree.vals 0 xs) m.rindex m.containers.length)
    (after : List VaArg) {fuel : Nat} (hfuel : VaTree.turnsAll xs < fuel) :
    sdBusMessageReadv fuel m (VaTree.types xs)
        (VaTree.argsAll (VaTree.pointersAll xs) ++ after) =
      some (.ok (if xs = [] then 0 else 1),
        ⟨m.behind (VaTree.vals 0 xs), Val.leavesAll m.fds (VaTree.vals 0 xs)⟩, after) := by
  obtain ⟨htys, hmatch, hdepth, hturns⟩ := VaTree.pointersAll_same xs
  cases xs with
  | nil =>
    rw [VaTree.vals, Received.behind_nil, Val.leavesAll]
    rfl
  | cons x xs =>
    have hne : Ty.sigs (VaTree.tys (x :: xs)) ≠ [] := by
      refine List.ne_nil_of_length_pos ?_
      rw [VaTree.tys, List.map_cons, Ty.sigs, List.length_append]
      have := x.ty.sig_pos
      omega
    have hrun := readCodec.run_values (htys ▸ h.fits') (hmatch h.contents) (hdepth ▸ h.depth_le)
      ⟨m, []⟩ after (hturns ▸ hfuel)
    have hwalk := readCodec_walkAll (n := 0)
      (fun x hx ht => readCodec_walk x ht (VaTree.allMatch_iff.mp h.contents x hx)) h.typed true
      [] after hcome hb hr
    rw [hwalk, htys] at hrun
    exact (if_neg hne).trans hrun

/-- The variadic functions are the recursion over the type string, and the one reads what the
other has written. -/
theorem sdBusMessageAppendv_readv {xs : List VaTree} (h : VaTree.Valid xs) :
    (∀ (m : Message) (after : List VaArg) (fuel : Nat), VaTree.turnsAll xs < fuel →
      ∃ ap, sdBusMessageAppendv fuel m (VaTree.types xs) (VaTree.argsAll xs ++ after) =
          some ((appendRecursive m xs).1.map (fun _ => 1), (appendRecursive m xs).2, ap) ∧
        ((appendRecursive m xs).1 = .ok () → ap = after)) ∧
    ∀ (bus : Bus) (m₀ m s : Message) (cookie : Nat), Written bus [] m₀ →
      appendRecursive m₀ xs = (.ok (), m) → sdBusMessageSeal m cookie = .ok s →
      Header.Acceptable { m.header with serial := cookie } →
      Tree.Readable m.endian ⟨VaTree.vals 0 xs, [], VaTree.fdsAll xs⟩ →
      s.fds = VaTree.fdsAll xs ∧ ∃ r, busMessageFromMalloc s.blob s.fds = .ok r ∧
        ∀ (after : List VaArg) (fuel : Nat), VaTree.turnsAll xs < fuel → ∃ r',
          sdBusMessageReadv fuel (sdBusMessageRewind r) (VaTree.types xs)
              (VaTree.argsAll (VaTree.pointersAll xs) ++ after) =
            some (.ok (if xs = [] then 0 else 1),
              ⟨r', Val.leavesAll s.fds (VaTree.vals 0 xs)⟩, after) := by
  refine ⟨fun m after fuel => sdBusMessageAppendv_eq h m after, ?_⟩
  intro bus m₀ m s cookie w happend hseal hacc hread
  have hexec : execAll m₀ (VaTree.opsAll xs) = (.ok (), m) := by
    unfold appendRecursive at happend
    split_ifs at happend
    · exact absurd (Prod.mk.inj happend).1 (by simp)
    · exact absurd (Prod.mk.inj happend).1 (by simp)
    · exact happend
  have w' : Written bus (VaTree.opsAll xs) m := w.runs (runs_of_execAll hexec)
  obtain ⟨r, em, hr, hrew, hcome, hb, hfds, hreadable⟩ :=
    written_comes w' hseal (VaTree.steps_values h) hacc hread
  refine ⟨hfds, r, hr, fun after fuel hfuel => ?_⟩
  rw [hrew] at hcome ⊢
  exact ⟨_, sdBusMessageReadv_eq h hcome hb hreadable after hfuel⟩

/-- The arguments `2, 1, 2, "y", 3` of the type string "ayv". -/
def sampleArgs : List VaTree :=
  [.container (.array (.basic (.num .byte)))
      [.basic (.num .byte) (.int 1), .basic (.num .byte) (.int 2)],
    .container (.variant (.basic (.num .byte))) [.basic (.num .byte) (.int 3)]]

theorem valid_sampleArgs : VaTree.Valid sampleArgs where
  types := signatureIsValid_sigs
    (by simp [sampleArgs, VaTree.tys, VaTree.ty, Kind.ty, Ty.Fits, maxDepth]) (by decide)
  contents := by
    simp [sampleArgs, VaTree.AllMatch, VaTree.Matches, Kind.Holds, VaTree.tys, VaTree.ty, Ty.Fits]
    decide
  typed := by simp [sampleArgs, VaTree.AllTyped, VaTree.Typed, Basic.arg]
  depth := .inl (by decide)

theorem readable_sampleArgs (e : Endian) :
    Tree.Readable e ⟨VaTree.vals 0 sampleArgs, [], VaTree.fdsAll sampleArgs⟩ := by
  have hfits : ∀ t ∈ [Ty.array (.basic (.num .byte)), .variant], t.Fits true 0 0 := by
    simp [Ty.Fits]
    decide
  refine ⟨⟨signatureIsValid_sigs hfits (by decide), by decide⟩, ?_⟩
  change Val.AllReadable e 0
    [.array (.basic (.num .byte)) [.basic (.num .byte 1), .basic (.num .byte 2)],
      .variant (.basic (.num .byte 3))] 0 0
  simp only [Val.AllReadable, Val.Readable, BasicVal.readable, Val.encs, Val.enc, BasicVal.enc,
    List.length_append, length_zeros, and_true]
  cases e <;> decide

theorem readv_sampleArgs : ∃ m₀ m s r r', Written littleBus [] m₀ ∧
    appendRecursive m₀ sampleArgs = (.ok (), m) ∧ sdBusMessageSeal m 1 = .ok s ∧
    busMessageFromMalloc s.blob s.fds = .ok r ∧
    sdBusMessageReadv 10 (sdBusMessageRewind r) (VaTree.types sampleArgs)
        (VaTree.argsAll (VaTree.pointersAll sampleArgs)) =
      some (.ok 1, ⟨r', [.num .byte 1, .num .byte 2, .num .byte 3]⟩, []) := by
  have hrun : (buildAndSeal sampleSignal (VaTree.opsAll sampleArgs) 1).any
      (fun p => decide (Header.Acceptable { p.1.header with serial := 1 })) = true := by
    decide +kernel
  obtain ⟨m₀, m, s, hm₀, hruns, hs, hacc⟩ := buildAndSeal_any hrun
  have hnew : sampleSignal.toOption.all (fun m => !m.sealed && !m.poisoned) = true := by
    decide +kernel
  rw [hm₀, Except.toOption, Option.all_some, Bool.and_eq_true, Bool.not_eq_true',
    Bool.not_eq_true'] at hnew
  have happend : appendRecursive m₀ sampleArgs = (.ok (), m) := by
    rw [appendRecursive, if_neg (by simp [hnew.1]), if_neg (by simp [hnew.2]),
      execAll_of_runs hruns]
  obtain ⟨-, hback⟩ := sdBusMessageAppendv_readv valid_sampleArgs
  obtain ⟨-, r, hr, hread⟩ := hback littleBus m₀ m s 1 (.newSignal hm₀) happend hs
    (of_decide_eq_true hacc) (readable_sampleArgs m.endian)
  obtain ⟨r', hr'⟩ := hread [] 10 (by decide)
  rw [List.append_nil] at hr'
  exact ⟨m₀, m, s, r, r', .newSignal hm₀, happend, hs, hr, hr'⟩

def nestedVariants : Nat → VaTree
  | 0 => .basic (.num .byte) (.int 7)
  | n + 1 => .container (.variant (nestedVariants n).ty) [nestedVariants n]

theorem nestedVariants_fits (n : Nat) : (nestedVariants n).ty.Fits false 0 0 := by
  cases n <;> simp [nestedVariants, VaTree.ty, Kind.ty, Ty.Fits]

theorem nestedVariants_matches (n : Nat) :
    (nestedVariants n).Matches ∧ (nestedVariants n).Typed := by
  induction n with
  | zero => simp [nestedVariants, VaTree.Matches, VaTree.Typed, Basic.arg]
  | succ n ih =>
    simp [nestedVariants, VaTree.Matches, VaTree.Typed, VaTree.AllMatch, VaTree.AllTyped,
      Kind.Holds, VaTree.tys, ih, nestedVariants_fits]

theorem messageExtendBody_room {m : Message} {fill : Bytes} (hp : m.poisoned = false)
    (hf : 0 < fill.length) (hroom : m.bodySize + fill.length ≤ uint32Max) :
    ∃ parts loc, messageExtendBody m 1 fill false =
      (some loc, { m with parts := parts, bodySize := m.bodySize + fill.length }) := by
  have hno : ¬ uint32Max < m.bodySize + fill.length := Nat.not_lt.mpr hroom
  have hz : fill.length ≠ 0 := hf.ne'
  simp only [messageExtendBody, hp, Bool.false_eq_true, if_false, alignUp_one, hno, Nat.sub_self,
    Nat.zero_add, hf, if_true, messageExtendContainers, hz]
  exact ⟨_, _, rfl⟩

abbrev variantFrame (s : Str) (i : Nat) : Container :=
  { enclosing := sdBusTypeVariant, signature := some s, index := i }

theorem openVariant_room {m : Message} {cs : List Container} {s : Str}
    (hs : m.sealed = false) (hp : m.poisoned = false)
    (hm : m.containers = variantFrame [sdBusTypeVariant] 0 :: cs)
    (hsig : signatureIsSingle s false = true) (hd : charAt s 0 ≠ sdBusTypeDictEntryBegin)
    (hroom : m.bodySize + (sigBytes s).length ≤ uint32Max) :
    ∃ parts, sdBusMessageOpenContainer m sdBusTypeVariant s = (.ok (), { m with
      parts := parts
      bodySize := m.bodySize + (sigBytes s).length
      containers := variantFrame s 0 :: variantFrame [sdBusTypeVariant] 1 :: cs }) := by
  have hpos : 0 < (sigBytes s).length := by simp [sigBytes]
  obtain ⟨parts, loc, hbody⟩ := messageExtendBody_room hp hpos hroom
  have hlast := messageGetLastContainer_cons hm
  have hcur : (variantFrame [sdBusTypeVariant] 0).cur = sdBusTypeVariant := rfl
  refine ⟨parts, ?_⟩
  rw [sdBusMessageOpenContainer, if_neg (by simp [hs]), if_neg (by simp [hp]), openByType, hlast,
    if_neg (by decide), if_pos rfl, busMessageOpenVariant, if_neg (by simp [hsig]), if_neg hd, hcur,
    if_pos (by decide), if_neg (by simp), openBody, hbody]
  simp [finishOpen, Message.advance, Message.setIndex, Message.setLastContainer, hm,
    messageGetLastContainer, sdBusTypeVariant, sdBusTypeArray]

theorem appendByte_room {m : Message} {cs : List Container}
    (hs : m.sealed = false) (hp : m.poisoned = false)
    (hm : m.containers = variantFrame [sdBusTypeByte] 0 :: cs)
    (hroom : m.bodySize + 1 ≤ uint32Max) :
    ∃ parts, messageAppendBasic m (.num .byte 7) = (.ok (), { m with
      parts := parts
      bodySize := m.bodySize + 1
      fds := m.fds ++ []
      containers := variantFrame [sdBusTypeByte] 1 :: cs }) := by
  have hlen : (putWord m.endian 1 7).length = 1 := length_putWord ..
  obtain ⟨parts, loc, hbody⟩ := @messageExtendBody_room m (putWord m.endian 1 7) hp
    (by rw [hlen]; decide) (by rw [hlen]; exact hroom)
  have hlast := messageGetLastContainer_cons hm
  have hcur : (variantFrame [sdBusTypeByte] 0).cur = sdBusTypeByte := rfl
  have hbytes : argBytes m (.num .byte 7) = .ok (1, putWord m.endian 1 7, []) := rfl
  refine ⟨parts, ?_⟩
  rw [messageAppendBasic, hlast, if_neg (by simp [hs]), if_neg (by decide), if_neg (by simp [hp]),
    hcur, if_pos (by decide), if_neg (by decide), appendBasicValue, hbytes]
  simp only [hbody, hlen]
  simp [Message.setIndex, Message.setLastContainer, hm,
    messageGetLastContainer, sdBusTypeVariant, sdBusTypeArray]

theorem nestedVariants_single (n : Nat) :
    signatureIsSingle (nestedVariants n).ty.sig false = true ∧
      charAt (nestedVariants n).ty.sig 0 ≠ sdBusTypeDictEntryBegin ∧
      (sigBytes (nestedVariants n).ty.sig).length = 3 :=
  ⟨signatureIsSingle_sig (nestedVariants_fits n), by cases n <;> exact of_decide_eq_true rfl,
    by cases n <;> rfl⟩

theorem nestedVariants_runs (n : Nat) {m : Message} {cs : List Container}
    (hs : m.sealed = false) (hp : m.poisoned = false)
    (hm : m.containers = variantFrame (nestedVariants n).ty.sig 0 :: cs)
    (hroom : m.bodySize + 3 * n + 1 ≤ uint32Max) :
    ∃ m', Runs m (nestedVariants n).ops m' ∧ m'.sealed = false ∧ m'.poisoned = false ∧
      m'.containers = variantFrame (nestedVariants n).ty.sig 1 :: cs := by
  induction n generalizing m cs with
  | zero =>
    obtain ⟨parts, happend⟩ := appendByte_room hs hp hm hroom
    exact ⟨_, .cons happend (.nil _), hs, hp, rfl⟩
  | succ n ih =>
    obtain ⟨hsig, hd, hlen⟩ := nestedVariants_single n
    obtain ⟨parts, hopen⟩ := openVariant_room hs hp hm hsig hd (by rw [hlen]; omega)
    rw [hlen] at hopen
    obtain ⟨m₂, hin, hs₂, hp₂, hm₂⟩ := @ih { m with
      parts := parts
      bodySize := m.bodySize + 3
      containers := variantFrame (nestedVariants n).ty.sig 0 ::
        variantFrame [sdBusTypeVariant] 1 :: cs } _ hs hp rfl (by simp only; omega)
    have hclose : sdBusMessageCloseContainer m₂ =
        (.ok (), { m₂ with containers := variantFrame [sdBusTypeVariant] 1 :: cs }) := by
      have hend : charAt (nestedVariants n).ty.sig 1 = 0 := by cases n <;> rfl
      simp [sdBusMessageCloseContainer, hs₂, hp₂, hm₂, Container.cur, strempty, hend]
    refine ⟨{ m₂ with containers := variantFrame [sdBusTypeVariant] 1 :: cs }, .cons hopen ?_,
      hs₂, hp₂, rfl⟩
    rw [VaTree.opsAll, VaTree.opsAll, List.append_nil]
    exact hin.append (.cons hclose (.nil _))

theorem nestedVariants_turn (n : Nat) {v : Variadic Message} {cs : List Container}
    (hs : v.state.sealed = false) (hp : v.state.poisoned = false)
    (hm : v.state.containers = variantFrame [sdBusTypeVariant] 0 :: cs)
    (hroom : v.state.bodySize + 3 ≤ uint32Max)
    (htypes : v.types = [sdBusTypeVariant]) (hstruct : v.nStruct = 1)
    (harray : v.nArray = noArray) (hap : v.ap = (nestedVariants (n + 1)).args) :
    ∃ parts, appendCodec.step v = some (Variadic.push
      { v with
        nLoop := v.nLoop + 1
        types := []
        nStruct := 0
        ap := (nestedVariants n).args
        state := { v.state with
          parts := parts
          bodySize := v.state.bodySize + 3
          containers := variantFrame (nestedVariants n).ty.sig 0 ::
            variantFrame [sdBusTypeVariant] 1 :: cs } }
      (nestedVariants n).ty.sig (nestedVariants n).ty.sig.length noArray) := by
  obtain ⟨hsig, hd, hlen⟩ := nestedVariants_single n
  obtain ⟨parts, hopen⟩ := openVariant_room hs hp hm hsig hd (by rw [hlen]; exact hroom)
  rw [hlen] at hopen
  have hcode : charAt [sdBusTypeVariant] 0 = sdBusTypeVariant := rfl
  have hbasic : Basic.ofCode sdBusTypeVariant = none := rfl
  have hargs : v.ap = .string (some ⟨_, (nestedVariants n).ty.zero_notMem_sig⟩) ::
      (nestedVariants n).args := by
    rw [hap]
    simp [nestedVariants, VaTree.args, Kind.vaArgs, VaTree.argsAll]
  refine ⟨parts, ?_⟩
  have hne : noArray ≠ 0 := by decide
  have hnot : sdBusTypeVariant ≠ sdBusTypeArray := by decide
  simp only [Codec.step, harray, hstruct, htypes, hne, Variadic.take, Variadic.skip, Codec.turn,
    hcode, hbasic, hargs, hnot, if_false, if_true, ne_eq, not_true_eq_false, one_ne_zero, and_false,
    or_self, appendCodec, hopen, CallResult.ofCall, Variadic.follow]
  rfl

theorem nestedVariants_full (n : Nat) {v : Variadic Message} {cs : List Container} {fuel : Nat}
    (hn : v.stack.length + n = busContainerDepth) (hs : v.state.sealed = false)
    (hp : v.state.poisoned = false)
    (hm : v.state.containers = variantFrame [sdBusTypeVariant] 0 :: cs)
    (hroom : v.state.bodySize + 3 * (n + 1) ≤ uint32Max)
    (htypes : v.types = [sdBusTypeVariant]) (hstruct : v.nStruct = 1)
    (harray : v.nArray = noArray) (hap : v.ap = (nestedVariants (n + 1)).args) (hfuel : n < fuel) :
    ∃ m ap, appendCodec.run fuel v = some (.error .einval, m, ap) := by
  induction n generalizing v cs fuel with
  | zero =>
    obtain ⟨fuel, rfl⟩ := Nat.exists_eq_add_of_lt hfuel
    obtain ⟨parts, hstep⟩ := nestedVariants_turn 0 hs hp hm (by omega) htypes hstruct harray hap
    rw [Codec.run, hstep, Variadic.push, typeStackPush, if_pos (by simp only; omega)]
    exact ⟨_, _, rfl⟩
  | succ n ih =>
    obtain ⟨fuel, rfl⟩ : ∃ k, fuel = k + 1 := ⟨fuel - 1, by omega⟩
    obtain ⟨parts, hstep⟩ :=
      nestedVariants_turn (n + 1) hs hp hm (by omega) htypes hstruct harray hap
    rw [Codec.run, hstep, Variadic.push, typeStackPush, if_neg (by simp only; omega)]
    refine ih ?_ hs hp rfl ?_ rfl rfl rfl rfl (Nat.lt_of_succ_lt_succ hfuel)
    · simp only [List.length_cons]
      omega
    · simp only
      omega

theorem not_sdBusMessageAppendv_readv :
    ¬ ∀ xs : List VaTree, signatureIsValid (VaTree.types xs).1 false = true →
      VaTree.AllMatch xs → VaTree.AllTyped xs → ∀ (m : Message) (fuel : Nat),
        VaTree.turnsAll xs < fuel →
        (sdBusMessageAppendv fuel m (VaTree.types xs) (VaTree.argsAll xs)).map (·.1) =
          some ((appendRecursive m xs).1.map (fun _ => 1)) := by
  intro h
  let m : Message := {
    endian := .little
    header := { type := 1 }
    parts := [{ data := [1, sdBusTypeVariant, 0] }]
    bodySize := 3
    root := { signature := some [sdBusTypeVariant], index := 1 }
    containers := [variantFrame [sdBusTypeVariant] 0] }
  have hm := nestedVariants_matches 129
  have hsig : (VaTree.types [nestedVariants 129]).1 = [sdBusTypeVariant] := rfl
  have heq := h [nestedVariants 129] (@signatureIsValid_sigs [.variant] false (by simp [Ty.Fits]) (by decide))
    ⟨hm.1, trivial⟩ ⟨hm.2, trivial⟩ m 300 (by decide +kernel)
  have hargs : VaTree.argsAll [nestedVariants 129] = (nestedVariants 129).args := by
    rw [VaTree.argsAll, VaTree.argsAll, List.append_nil]
  have hops : VaTree.opsAll [nestedVariants 129] = (nestedVariants 129).ops := by
    rw [VaTree.opsAll, VaTree.opsAll, List.append_nil]
  obtain ⟨m₁, ap, hloop⟩ := @nestedVariants_full 128
    { state := m, ap := (nestedVariants 129).args, types := [sdBusTypeVariant], nStruct := 1 } []
    300 rfl rfl rfl rfl (by decide) rfl rfl rfl rfl (by decide)
  obtain ⟨m₂, hruns, -⟩ := @nestedVariants_runs 129 m [] rfl rfl rfl (by decide)
  rw [sdBusMessageAppendv, if_neg (by decide), if_neg (by decide), hsig, hargs,
    List.length_singleton, hloop, appendRecursive, if_neg (by decide), if_neg (by decide), hops,
    execAll_of_runs hruns] at heq
  exact absurd heq (by simp [Except.map])

end Basu
