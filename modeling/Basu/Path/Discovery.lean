import Basu.Path.Tree
import Mathlib.Data.List.Perm.Basic

/-! How `busctl` finds the objects of a service: a work list of paths, from which each path is
taken, introspected and put aside. -/

namespace Basu.Discovery
open Path

/-! ## `tree_one` -/

structure Entry where
  id : Nat
  path : Str

structure Service where
  probe : Bool
  answers : Str → Nat → Bool
  children : Str → List Str
  parses : Str → Bool
  code : Str → Nat

/-- The three sets, the strings that were freed, and the paths that `find_nodes` was called for. -/
structure TreeState where
  paths : List Entry
  done : List Entry
  failed : List Entry
  freed : List Nat
  next : Nat
  r : Int
  serviceUnresponsive : Bool
  calls : List Str
  steals : Nat

def setContains (l : List Entry) (p : Str) : Bool := l.any fun e => e.path = p

def setPutStrdup (t : TreeState) (p : Str) : TreeState :=
  if setContains t.paths p then t
  else { t with paths := t.paths ++ [⟨t.next, p⟩], next := t.next + 1 }

def stealFirst (pick : Nat → Nat) (t : TreeState) : Option (Entry × TreeState) :=
  let i := pick t.steals % t.paths.length
  t.paths[i]?.map fun e => (e, { t with paths := t.paths.eraseIdx i, steals := t.steals + 1 })

def Service.findNodes (s : Service) (path : Str) (t : TreeState) : Int × TreeState :=
  if (List.range 5).any (s.answers path) then
    (if s.parses path then 0 else -(s.code path + 1), (s.children path).foldl setPutStrdup t)
  else (-22, t)

/-- The body of the loop. The string is freed unless `p` is reset. -/
def Service.turn (s : Service) (p : Entry) (t : TreeState) : TreeState :=
  if setContains t.done p.path || setContains t.failed p.path then
    { t with freed := p.id :: t.freed }
  else if t.serviceUnresponsive then
    { t with failed := p :: t.failed, freed := p.id :: t.freed }
  else
    let (q, t) := s.findNodes p.path { t with calls := p.path :: t.calls }
    if q < 0 then
      { t with r := if 0 ≤ t.r then q else t.r, serviceUnresponsive := true,
               failed := p :: t.failed }
    else { t with done := p :: t.done }

def treeLoop (s : Service) (pick : Nat → Nat) : Nat → TreeState → Option TreeState
  | 0, _ => none
  | fuel + 1, t =>
    match stealFirst pick t with
    | none => some t
    | some (p, t) => treeLoop s pick fuel (s.turn p t)

/-- `set_put` of the root returned 1. -/
def startState : TreeState :=
  { paths := [⟨0, root⟩], done := [], failed := [], freed := [], next := 1, r := 1,
    serviceUnresponsive := false, calls := [], steals := 0 }

def treeOne (s : Service) (pick : Nat → Nat) (fuel : Nat) : Option TreeState :=
  if s.probe then treeLoop s pick fuel startState
  else some { startState with serviceUnresponsive := true }

def TreeState.shown (t : TreeState) : List Str := t.done.map Entry.path

/-! ## What is asked of it -/

def Service.succeeds (s : Service) (p : Str) : Bool :=
  (List.range 5).any (s.answers p) && s.parses p

inductive Reachable (s : Service) : Str → Prop
  | root : Reachable s root
  | child {p c : Str} : Reachable s p → c ∈ s.children p → Reachable s c

inductive Reached (s : Service) (pick : Nat → Nat) : TreeState → Prop
  | start : s.probe = true → Reached s pick startState
  | turn {t t' : TreeState} {p : Entry} : Reached s pick t → stealFirst pick t = some (p, t') →
    Reached s pick (s.turn p t')

def TreeState.ids (t : TreeState) : List Nat :=
  t.freed ++ (t.paths ++ (t.done ++ t.failed)).map Entry.id

/-- Every string is in one place, but for those that are held. -/
def OwnedWith (held : List Nat) (t : TreeState) : Prop := (held ++ t.ids).Perm (List.range t.next)

structure Right (s : Service) (t : TreeState) : Prop where
  once : t.calls.Nodup
  owned : OwnedWith [] t
  shown : ∀ p, p ∈ t.shown ↔ p ∈ t.calls ∧ s.succeeds p = true
  complete : (∀ p, Reachable s p → s.succeeds p = true) → ∀ p, p ∈ t.shown ↔ Reachable s p
  error : (s.probe = false ∨ ∃ p ∈ t.calls, s.succeeds p = false) → t.r < 0

structure TreeLaw (s : Service) (pick : Nat → Nat) : Prop where
  ends : ∃ fuel t, treeOne s pick fuel = some t
  right : ∀ fuel t, treeOne s pick fuel = some t → Right s t
  owned : ∀ t, Reached s pick t → OwnedWith [] t

def Spared (s : Service) (pick : Nat → Nat) : Prop :=
  s.probe = true ∧ ∀ t p t', Reached s pick t → stealFirst pick t = some (p, t') →
    t.serviceUnresponsive = true →
    (setContains t.done p.path || setContains t.failed p.path) = true

section
variable {s : Service} {pick : Nat → Nat} {t t' : TreeState} {p : Entry}

theorem setContains_iff {l : List Entry} {p : Str} :
    setContains l p = true ↔ p ∈ l.map Entry.path := by
  simp [setContains]

theorem steal_spec (h : stealFirst pick t = some (p, t')) :
    ∃ paths, t.paths.Perm (p :: paths) ∧
      t' = { t with paths := paths, steals := t.steals + 1 } := by
  obtain ⟨e, he, hpair⟩ := Option.map_eq_some_iff.mp h
  obtain ⟨hi, rfl⟩ := List.getElem?_eq_some_iff.mp he
  obtain ⟨rfl, rfl⟩ := Prod.mk.inj hpair
  exact ⟨_, (List.getElem_cons_eraseIdx_perm hi).symm, rfl⟩

theorem steal_none (h : stealFirst pick t = none) : t.paths = [] := by
  by_contra hne
  have hpos := List.length_pos_of_ne_nil hne
  have hlt := Nat.mod_lt (pick t.steals) hpos
  rw [stealFirst, Option.map_eq_none_iff, List.getElem?_eq_none_iff] at h
  omega

theorem OwnedWith.steal (h : OwnedWith [] t) (hsteal : stealFirst pick t = some (p, t')) :
    OwnedWith [p.id] t' := by
  obtain ⟨paths, hperm, rfl⟩ := steal_spec hsteal
  refine List.Perm.trans ?_ h
  refine List.perm_iff_count.mpr fun a => ?_
  have hcount := (hperm.map Entry.id).count_eq a
  simp only [TreeState.ids, List.map_append, List.count_append, List.map_cons, List.count_cons,
    List.count_nil] at hcount ⊢
  omega

theorem OwnedWith.put {held : List Nat} (h : OwnedWith held t) (c : Str) :
    OwnedWith held (setPutStrdup t c) := by
  unfold setPutStrdup
  split_ifs
  · exact h
  · change (held ++ _).Perm (List.range (t.next + 1))
    rw [List.range_succ]
    refine List.Perm.trans ?_ (h.append_right [t.next])
    refine List.perm_iff_count.mpr fun a => ?_
    simp only [TreeState.ids, List.map_append, List.count_append, List.map_cons, List.count_cons,
      List.map_nil, List.count_nil]
    omega

theorem putAll_spec {held : List Nat} (cs : List Str) (h : OwnedWith held t) :
    ∃ paths next, cs.foldl setPutStrdup t = { t with paths := paths, next := next } ∧
      (∀ c, c ∈ paths.map Entry.path ↔ c ∈ t.paths.map Entry.path ∨ c ∈ cs) ∧
      paths.length ≤ t.paths.length + cs.length ∧
      OwnedWith held { t with paths := paths, next := next } := by
  induction cs generalizing t with
  | nil => exact ⟨t.paths, t.next, rfl, by simp, le_rfl, h⟩
  | cons c cs ih =>
    obtain ⟨paths, next, heq, hmem, hlen, howned⟩ := ih (h.put c)
    have hput : ∃ paths' next', setPutStrdup t c = { t with paths := paths', next := next' } ∧
        (∀ x, x ∈ paths'.map Entry.path ↔ x ∈ t.paths.map Entry.path ∨ x = c) ∧
        paths'.length ≤ t.paths.length + 1 := by
      unfold setPutStrdup
      split_ifs with hin
      · refine ⟨t.paths, t.next, rfl, fun x => ?_, Nat.le_succ _⟩
        rw [setContains_iff] at hin
        exact ⟨.inl, fun hx => hx.elim id fun hx => hx ▸ hin⟩
      · exact ⟨_, _, rfl, by simp, by simp⟩
    obtain ⟨paths', next', hput, hmem', hlen'⟩ := hput
    rw [List.foldl_cons]
    rw [hput] at heq hmem hlen howned ⊢
    refine ⟨paths, next, heq, fun x => ?_, ?_, howned⟩
    · rw [hmem x, List.mem_cons]
      change x ∈ paths'.map Entry.path ∨ _ ↔ _
      rw [hmem' x]
      tauto
    · rw [List.length_cons]
      change paths.length ≤ paths'.length + cs.length at hlen
      omega

theorem not_owned_of_skip (hsteal : stealFirst pick t = some (p, t'))
    (hu : t.serviceUnresponsive = true)
    (hnew : ¬ (setContains t.done p.path || setContains t.failed p.path) = true) :
    ¬ OwnedWith [] (s.turn p t') := by
  obtain ⟨paths, -, rfl⟩ := steal_spec hsteal
  intro howned
  have hnodup := howned.nodup_iff.mpr List.nodup_range
  unfold Service.turn at hnodup
  rw [if_neg hnew, if_pos hu, List.nil_append] at hnodup
  have hdisjoint := (List.nodup_append.mp hnodup).2.2
  exact hdisjoint p.id List.mem_cons_self p.id (by simp) rfl

/-! ## The states of a run -/

structure Inv (s : Service) (t : TreeState) : Prop where
  owned : OwnedWith [] t
  once : t.calls.Nodup
  done_iff : ∀ p, p ∈ t.done.map Entry.path ↔ p ∈ t.calls ∧ s.succeeds p = true
  failed_iff : ∀ p, p ∈ t.failed.map Entry.path ↔ p ∈ t.calls ∧ s.succeeds p = false
  root : root ∈ t.calls ∨ root ∈ t.paths.map Entry.path
  closed : ∀ p ∈ t.calls, s.succeeds p = true → ∀ c ∈ s.children p,
    c ∈ t.calls ∨ c ∈ t.paths.map Entry.path
  reachable : ∀ p, p ∈ t.calls ∨ p ∈ t.paths.map Entry.path → Reachable s p
  error : (∃ p ∈ t.calls, s.succeeds p = false) → t.r < 0

theorem inv_start : Inv s startState where
  owned := List.Perm.refl _
  once := List.nodup_nil
  done_iff := by simp [startState]
  failed_iff := by simp [startState]
  root := by simp [startState]
  closed := by simp [startState]
  reachable p hp := by
    obtain rfl : p = Path.root := by simpa [startState] using hp
    exact .root
  error := by simp [startState]

theorem known_iff (h : Inv s t) {q : Str} :
    (setContains t.done q || setContains t.failed q) = true ↔ q ∈ t.calls := by
  rw [Bool.or_eq_true, setContains_iff, setContains_iff, h.done_iff, h.failed_iff]
  cases s.succeeds q <;> simp

structure Dropped (p : Entry) (t u : TreeState) : Prop where
  owned : OwnedWith [] u
  calls : u.calls = t.calls
  done : u.done = t.done
  failed : u.failed = t.failed
  r : u.r = t.r
  paths : ∀ c, c ∈ t.paths.map Entry.path ↔ c = p.path ∨ c ∈ u.paths.map Entry.path
  length : u.paths.length < t.paths.length

structure Introspected (s : Service) (p : Entry) (t u : TreeState) : Prop where
  owned : OwnedWith [] u
  calls : u.calls = p.path :: t.calls
  done : u.done = if s.succeeds p.path then p :: t.done else t.done
  failed : u.failed = if s.succeeds p.path then t.failed else p :: t.failed
  error : s.succeeds p.path = false ∨ t.r < 0 → u.r < 0
  children : s.succeeds p.path = true → ∀ c ∈ s.children p.path, c ∈ u.paths.map Entry.path
  kept : ∀ c ∈ t.paths.map Entry.path, c = p.path ∨ c ∈ u.paths.map Entry.path
  added : ∀ c ∈ u.paths.map Entry.path, c ∈ t.paths.map Entry.path ∨ c ∈ s.children p.path
  length : u.paths.length < t.paths.length + (s.children p.path).length

theorem findNodes_spec {held : List Nat} (s : Service) (c : Str) (h : OwnedWith held t) :
    ∃ q paths next, s.findNodes c t = (q, { t with paths := paths, next := next }) ∧
      (q < 0 ↔ s.succeeds c = false) ∧
      (s.succeeds c = true → ∀ x ∈ s.children c, x ∈ paths.map Entry.path) ∧
      (∀ x ∈ t.paths.map Entry.path, x ∈ paths.map Entry.path) ∧
      (∀ x ∈ paths.map Entry.path, x ∈ t.paths.map Entry.path ∨ x ∈ s.children c) ∧
      paths.length ≤ t.paths.length + (s.children c).length ∧
      OwnedWith held { t with paths := paths, next := next } := by
  unfold Service.findNodes Service.succeeds
  cases hanswer : (List.range 5).any (s.answers c) with
  | false =>
    rw [if_neg Bool.false_ne_true, Bool.false_and]
    exact ⟨-22, t.paths, t.next, rfl, by simp, fun hs => absurd hs Bool.false_ne_true,
      fun x hx => hx, fun x hx => .inl hx, Nat.le_add_right _ _, h⟩
  | true =>
    obtain ⟨paths, next, heq, hmem, hlen, howned⟩ := putAll_spec (s.children c) h
    rw [if_pos rfl, heq, Bool.true_and]
    refine ⟨_, paths, next, rfl, ?_, fun _ x hx => (hmem x).mpr (.inr hx),
      fun x hx => (hmem x).mpr (.inl hx), fun x hx => (hmem x).mp hx, hlen, howned⟩
    cases s.parses c with
    | false =>
      rw [if_neg Bool.false_ne_true]
      exact iff_of_true (by omega) rfl
    | true =>
      rw [if_pos rfl]
      exact iff_of_false (by omega) Bool.noConfusion

theorem OwnedWith.keep {u v : TreeState} (h : OwnedWith [p.id] u)
    (hids : v.ids.Perm (p.id :: u.ids)) (hnext : v.next = u.next) : OwnedWith [] v := by
  rw [OwnedWith, hnext]
  exact hids.trans h

theorem dropped (h : Inv s t) (hsteal : stealFirst pick t = some (p, t')) (hp : p.path ∈ t.calls) :
    Dropped p t (s.turn p t') := by
  have howned := h.owned.steal hsteal
  obtain ⟨paths, hperm, rfl⟩ := steal_spec hsteal
  rw [Service.turn, if_pos ((known_iff h).mpr hp)]
  refine ⟨howned.keep (List.Perm.refl _) rfl, rfl, rfl, rfl, rfl, fun c => ?_, ?_⟩
  · rw [(hperm.map Entry.path).mem_iff, List.map_cons, List.mem_cons]
  · rw [hperm.length_eq]
    exact Nat.lt_succ_self _

theorem introspected (h : Inv s t) (hsteal : stealFirst pick t = some (p, t'))
    (hp : p.path ∉ t.calls) (hu : t.serviceUnresponsive = false) :
    Introspected s p t (s.turn p t') := by
  have howned := h.owned.steal hsteal
  obtain ⟨paths, hperm, rfl⟩ := steal_spec hsteal
  have hmem (c : Str) : c ∈ t.paths.map Entry.path ↔ c = p.path ∨ c ∈ paths.map Entry.path := by
    rw [(hperm.map Entry.path).mem_iff, List.map_cons, List.mem_cons]
  have hlen := hperm.length_eq
  rw [List.length_cons] at hlen
  obtain ⟨q, paths', next, hfind, hq, hchildren, hkept, hadded, hlength, howned⟩ :=
    @findNodes_spec { t with
      paths := paths, steals := t.steals + 1, calls := p.path :: t.calls } _ s p.path howned
  have hpaths : (∀ c ∈ t.paths.map Entry.path, c = p.path ∨ c ∈ paths'.map Entry.path) ∧
      (∀ c ∈ paths'.map Entry.path, c ∈ t.paths.map Entry.path ∨ c ∈ s.children p.path) :=
    ⟨fun c hc => ((hmem c).mp hc).imp_right (hkept c),
      fun c hc => (hadded c hc).imp_left fun hc => (hmem c).mpr (.inr hc)⟩
  have hlength : paths'.length < t.paths.length + (s.children p.path).length := by
    change paths'.length ≤ paths.length + _ at hlength
    omega
  rw [Service.turn, if_neg fun hknown => hp ((known_iff h).mp hknown),
    if_neg (ne_of_eq_of_ne hu Bool.false_ne_true)]
  simp only [hfind]
  cases hs : s.succeeds p.path with
  | false =>
    rw [hs] at hq hchildren
    rw [if_pos (hq.mpr rfl)]
    refine ⟨howned.keep ?_ rfl, rfl, ?_, ?_, fun _ => ?_, fun hs' => ?_, hpaths.1, hpaths.2,
      hlength⟩
    · refine List.perm_iff_count.mpr fun a => ?_
      simp only [TreeState.ids, List.map_append, List.count_append, List.map_cons, List.count_cons]
      omega
    · rw [hs, if_neg Bool.false_ne_true]
    · rw [hs, if_neg Bool.false_ne_true]
    · have hq := hq.mpr rfl
      dsimp only
      split_ifs <;> omega
    · rw [hs] at hs'
      cases hs'
  | true =>
    rw [hs] at hq hchildren
    have hq : ¬ q < 0 := fun hlt => Bool.noConfusion (hq.mp hlt)
    rw [if_neg hq]
    refine ⟨howned.keep ?_ rfl, rfl, ?_, ?_, fun hr => ?_, fun _ => hchildren rfl, hpaths.1,
      hpaths.2, hlength⟩
    · refine List.perm_iff_count.mpr fun a => ?_
      simp only [TreeState.ids, List.map_append, List.count_append, List.map_cons, List.count_cons]
      omega
    · rw [hs, if_pos rfl]
    · rw [hs, if_pos rfl]
    · rw [hs] at hr
      exact hr.resolve_left Bool.noConfusion

theorem Inv.dropped {u : TreeState} (h : Inv s t) (hp : p.path ∈ t.calls) (hd : Dropped p t u) :
    Inv s u where
  owned := hd.owned
  once := hd.calls ▸ h.once
  done_iff := by
    rw [hd.done, hd.calls]
    exact h.done_iff
  failed_iff := by
    rw [hd.failed, hd.calls]
    exact h.failed_iff
  root := by
    rw [hd.calls]
    refine h.root.elim .inl fun hroot => ?_
    exact ((hd.paths _).mp hroot).imp_left fun heq => by
      rw [heq]
      exact hp
  closed q hq hs c hc := by
    rw [hd.calls] at hq ⊢
    refine (h.closed q hq hs c hc).elim .inl fun hpaths => ?_
    exact ((hd.paths _).mp hpaths).imp_left fun heq => by
      rw [heq]
      exact hp
  reachable q hq := by
    rw [hd.calls] at hq
    exact h.reachable q (hq.imp_right fun hpaths => (hd.paths q).mpr (.inr hpaths))
  error := by
    rw [hd.calls, hd.r]
    exact h.error

theorem Inv.introspected {u : TreeState} (h : Inv s t) (hp : p.path ∉ t.calls)
    (hreach : Reachable s p.path) (hi : Introspected s p t u) : Inv s u where
  owned := hi.owned
  once := by
    rw [hi.calls]
    exact List.nodup_cons.mpr ⟨hp, h.once⟩
  done_iff q := by
    rw [hi.done, hi.calls]
    cases hs : s.succeeds p.path with
    | false =>
      rw [if_neg Bool.false_ne_true, h.done_iff, List.mem_cons]
      refine ⟨fun hq => ⟨.inr hq.1, hq.2⟩, fun hq => ⟨hq.1.resolve_left ?_, hq.2⟩⟩
      rintro rfl
      rw [hs] at hq
      cases hq.2
    | true =>
      rw [if_pos rfl, List.map_cons, List.mem_cons, List.mem_cons, h.done_iff]
      refine ⟨?_, fun hq => hq.1.imp_right fun hin => ⟨hin, hq.2⟩⟩
      rintro (rfl | hq)
      · exact ⟨.inl rfl, hs⟩
      · exact ⟨.inr hq.1, hq.2⟩
  failed_iff q := by
    rw [hi.failed, hi.calls]
    cases hs : s.succeeds p.path with
    | true =>
      rw [if_pos rfl, h.failed_iff, List.mem_cons]
      refine ⟨fun hq => ⟨.inr hq.1, hq.2⟩, fun hq => ⟨hq.1.resolve_left ?_, hq.2⟩⟩
      rintro rfl
      rw [hs] at hq
      cases hq.2
    | false =>
      rw [if_neg Bool.false_ne_true, List.map_cons, List.mem_cons, List.mem_cons, h.failed_iff]
      refine ⟨?_, fun hq => hq.1.imp_right fun hin => ⟨hin, hq.2⟩⟩
      rintro (rfl | hq)
      · exact ⟨.inl rfl, hs⟩
      · exact ⟨.inr hq.1, hq.2⟩
  root := by
    rw [hi.calls, List.mem_cons]
    obtain hroot | hroot := h.root
    · exact .inl (.inr hroot)
    · exact (hi.kept _ hroot).imp_left .inl
  closed q hq hs c hc := by
    rw [hi.calls, List.mem_cons] at hq ⊢
    obtain rfl | hq := hq
    · exact .inr (hi.children hs c hc)
    · obtain hin | hin := h.closed q hq hs c hc
      · exact .inl (.inr hin)
      · exact (hi.kept c hin).imp_left .inl
  reachable q hq := by
    rw [hi.calls, List.mem_cons] at hq
    obtain (rfl | hq) | hq := hq
    · exact hreach
    · exact h.reachable q (.inl hq)
    · exact (hi.added q hq).elim (fun hin => h.reachable q (.inr hin)) (.child hreach)
  error := by
    rintro ⟨q, hq, hs⟩
    rw [hi.calls, List.mem_cons] at hq
    obtain rfl | hq := hq
    · exact hi.error (.inl hs)
    · exact hi.error (.inr (h.error ⟨q, hq, hs⟩))

def remaining (s : Service) (calls : List Str) : List Str → Nat
  | [] => 0
  | q :: l => (if q ∈ calls then 0 else (s.children q).length) + remaining s calls l

theorem remaining_le (s : Service) (calls : List Str) (p : Str) (l : List Str) :
    remaining s (p :: calls) l ≤ remaining s calls l := by
  induction l with
  | nil => exact le_rfl
  | cons q l ih =>
    refine Nat.add_le_add ?_ ih
    split_ifs with hin hout hout
    · exact Nat.zero_le _
    · exact Nat.zero_le _
    · exact absurd (List.mem_cons_of_mem p hout) hin
    · exact le_rfl

theorem remaining_introspected {calls l : List Str} {p : Str} (hp : p ∉ calls) (hl : p ∈ l) :
    remaining s (p :: calls) l + (s.children p).length ≤ remaining s calls l := by
  induction l with
  | nil => exact absurd hl List.not_mem_nil
  | cons q l ih =>
    rw [remaining, remaining]
    obtain rfl | hl := List.mem_cons.mp hl
    · rw [if_pos List.mem_cons_self, if_neg hp]
      have hle := remaining_le s calls p l
      omega
    · have hrest := ih hl
      have hfirst := remaining_le s calls p [q]
      simp only [remaining, Nat.add_zero] at hfirst
      omega

theorem turn_cases (hspared : Spared s pick) (hreached : Reached s pick t) (h : Inv s t)
    (hsteal : stealFirst pick t = some (p, t')) :
    Inv s (s.turn p t') ∧ ∀ U : List Str, (∀ q, Reachable s q → q ∈ U) →
      (s.turn p t').paths.length + remaining s (s.turn p t').calls U <
        t.paths.length + remaining s t.calls U := by
  obtain ⟨paths, hperm, -⟩ := steal_spec hsteal
  have hreach : Reachable s p.path := h.reachable p.path
    (.inr (List.mem_map_of_mem (hperm.mem_iff.mpr List.mem_cons_self)))
  by_cases hp : p.path ∈ t.calls
  · have hd := Discovery.dropped h hsteal hp
    refine ⟨h.dropped hp hd, fun U _ => ?_⟩
    rw [hd.calls]
    exact Nat.add_lt_add_right hd.length _
  · have hu : t.serviceUnresponsive = false := by
      by_contra hne
      exact hp ((known_iff h).mp (hspared.2 t p t' hreached hsteal (by simpa using hne)))
    have hi := Discovery.introspected h hsteal hp hu
    refine ⟨h.introspected hp hreach hi, fun U hU => ?_⟩
    have hrest := @remaining_introspected s _ U _ hp (hU _ hreach)
    have hlength := hi.length
    rw [hi.calls]
    omega

theorem treeLoop_ends (hspared : Spared s pick) {U : List Str} (hU : ∀ q, Reachable s q → q ∈ U)
    (fuel : Nat) (hreached : Reached s pick t) (h : Inv s t)
    (hfuel : t.paths.length + remaining s t.calls U < fuel) :
    ∃ u, treeLoop s pick fuel t = some u := by
  induction fuel generalizing t with
  | zero => exact absurd hfuel (Nat.not_lt_zero _)
  | succ fuel ih =>
    rw [treeLoop]
    cases hsteal : stealFirst pick t with
    | none => exact ⟨t, rfl⟩
    | some x =>
      obtain ⟨hinv, hless⟩ := turn_cases hspared hreached h hsteal
      have hless := hless U hU
      exact ih (hreached.turn hsteal) hinv (by omega)

theorem treeLoop_inv (hspared : Spared s pick) (fuel : Nat) (hreached : Reached s pick t)
    (h : Inv s t) {u : TreeState} (hloop : treeLoop s pick fuel t = some u) :
    Inv s u ∧ u.paths = [] := by
  induction fuel generalizing t with
  | zero => cases hloop
  | succ fuel ih =>
    rw [treeLoop] at hloop
    cases hsteal : stealFirst pick t with
    | none =>
      rw [hsteal] at hloop
      cases hloop
      exact ⟨h, steal_none hsteal⟩
    | some x =>
      rw [hsteal] at hloop
      exact ih (hreached.turn hsteal) (turn_cases hspared hreached h hsteal).1 hloop

theorem Reached.inv (hspared : Spared s pick) (h : Reached s pick t) : Inv s t := by
  induction h with
  | start => exact inv_start
  | turn hreached hsteal ih => exact (turn_cases hspared hreached ih hsteal).1

theorem Inv.right (h : Inv s t) (hprobe : s.probe = true) (hempty : t.paths = []) : Right s t where
  once := h.once
  owned := h.owned
  shown := h.done_iff
  complete hall q := by
    refine (h.done_iff q).trans ⟨fun hq => h.reachable q (.inl hq.1), fun hq => ⟨?_, hall q hq⟩⟩
    have hcalls {c : Str} (hc : c ∈ t.calls ∨ c ∈ t.paths.map Entry.path) : c ∈ t.calls := by
      rw [hempty] at hc
      exact hc.resolve_right List.not_mem_nil
    induction hq with
    | root => exact hcalls h.root
    | child hp hc ih => exact hcalls (h.closed _ ih (hall _ hp) _ hc)
  error hfail := h.error (hfail.resolve_left (by rw [hprobe]; exact Bool.noConfusion))

end

theorem treeLaw_iff (s : Service) (pick : Nat → Nat) (U : List Str)
    (hU : ∀ p, Reachable s p → p ∈ U) : TreeLaw s pick ↔ Spared s pick := by
  constructor
  · intro hlaw
    have hprobe : s.probe = true := by
      by_contra hprobe
      have hone : treeOne s pick 0 = some { startState with serviceUnresponsive := true } :=
        if_neg hprobe
      have hr : (1 : Int) < 0 := (hlaw.right 0 _ hone).error (.inl (by simpa using hprobe))
      omega
    refine ⟨hprobe, fun t p t' hreached hsteal hu => ?_⟩
    by_contra hnew
    exact not_owned_of_skip hsteal hu hnew (hlaw.owned _ (hreached.turn hsteal))
  · intro hspared
    have hone (fuel : Nat) : treeOne s pick fuel = treeLoop s pick fuel startState :=
      if_pos hspared.1
    have hstart : Reached s pick startState := .start hspared.1
    refine ⟨?_, fun fuel t ht => ?_, fun t ht => (ht.inv hspared).owned⟩
    · obtain ⟨u, hu⟩ := treeLoop_ends hspared hU _ hstart inv_start (Nat.lt_succ_self _)
      exact ⟨_, u, (hone _).trans hu⟩
    · rw [hone] at ht
      obtain ⟨hinv, hempty⟩ := treeLoop_inv hspared fuel hstart inv_start ht
      exact hinv.right hspared.1 hempty

def lonely : Service where
  probe := true
  answers _ _ := true
  children _ := []
  parses _ := true
  code _ := 0

theorem treeLaw_iff_lonely : TreeLaw lonely id ↔ Spared lonely id :=
  treeLaw_iff lonely id [root] fun p hp => by
    cases hp with
    | root => exact List.mem_singleton_self _
    | child _ hc => cases hc

def dying : Service where
  probe := true
  answers p _ := p = root
  children p := if p = root then [str "/a", str "/b"] else []
  parses _ := true
  code _ := 0

theorem not_treeLaw : ¬ TreeLaw dying fun _ => 0 := by
  intro hlaw
  obtain ⟨t, ht⟩ : ∃ t, treeOne dying (fun _ => 0) 4 = some t := ⟨_, rfl⟩
  have hids : (treeOne dying (fun _ => 0) 4).map TreeState.ids = some [2, 0, 2, 1] := rfl
  rw [ht] at hids
  have hnodup := (hlaw.right 4 t ht).owned.nodup_iff.mpr List.nodup_range
  rw [List.nil_append, Option.some.inj hids] at hnodup
  exact absurd hnodup (by decide)

end Basu.Discovery
