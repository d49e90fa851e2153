import Mathlib.Data.List.Basic

/-! Runs of a step function: what holds of every step of a run and in every state it reaches. -/

namespace Lib

variable {σ ι : Type*} (step : σ → ι → σ)

def StepsAll (P : σ → ι → Prop) : σ → List ι → Prop
  | _, [] => True
  | s, i :: l => P s i ∧ StepsAll P (step s i) l

def StatesAll (I : σ → Prop) : σ → List ι → Prop
  | s, [] => I s
  | s, i :: l => I s ∧ StatesAll I (step s i) l

variable {step}
variable {P Q : σ → ι → Prop} {I J : σ → Prop}

theorem StepsAll.imp (h : ∀ s i, I s → P s i → Q s i ∧ I (step s i)) :
    ∀ (l : List ι) {s : σ}, I s → StepsAll step P s l → StepsAll step Q s l
  | [], _, _, _ => trivial
  | i :: l, s, hs, hl => by
    obtain ⟨hq, hi⟩ := h s i hs hl.1
    exact ⟨hq, imp h l hi hl.2⟩

theorem StepsAll.statesAll (h : ∀ s i, I s → P s i → I (step s i)) :
    ∀ (l : List ι) {s : σ}, I s → StepsAll step P s l → StatesAll step I s l
  | [], _, hs, _ => hs
  | i :: l, s, hs, hl => ⟨hs, statesAll h l (h s i hs hl.1) hl.2⟩

theorem statesAll_of_kept (h : ∀ s i, I s → I (step s i)) :
    ∀ (l : List ι) {s : σ}, I s → StatesAll step I s l
  | [], _, hs => hs
  | i :: l, s, hs => ⟨hs, statesAll_of_kept h l (h s i hs)⟩

theorem StatesAll.imp (h : ∀ s, I s → J s) : ∀ (l : List ι) {s : σ},
    StatesAll step I s l → StatesAll step J s l
  | [], _, hs => h _ hs
  | _ :: l, _, hs => ⟨h _ hs.1, imp h l hs.2⟩

theorem StatesAll.and : ∀ (l : List ι) {s : σ}, StatesAll step I s l → StatesAll step J s l →
    StatesAll step (fun s => I s ∧ J s) s l
  | [], _, hi, hj => ⟨hi, hj⟩
  | _ :: l, _, hi, hj => ⟨⟨hi.1, hj.1⟩, StatesAll.and l hi.2 hj.2⟩

theorem StatesAll.head : ∀ {l : List ι} {s : σ}, StatesAll step I s l → I s
  | [], _, h => h
  | _ :: _, _, h => h.1

theorem StatesAll.last : ∀ {l : List ι} {s : σ}, StatesAll step I s l → I (l.foldl step s)
  | [], _, h => h
  | _ :: l, _, h => last (l := l) h.2

theorem stepsAll_iff_statesAll (h : ∀ s i, I s → (P s i ↔ I (step s i))) :
    ∀ (l : List ι) {s : σ}, I s → (StepsAll step P s l ↔ StatesAll step I s l)
  | [], _, hs => ⟨fun _ => hs, fun _ => trivial⟩
  | i :: l, s, hs => by
    constructor
    · rintro ⟨hp, hl⟩
      have hi := (h s i hs).mp hp
      exact ⟨hs, (stepsAll_iff_statesAll h l hi).mp hl⟩
    · rintro ⟨-, hl⟩
      have hi := hl.head
      exact ⟨(h s i hs).mpr hi, (stepsAll_iff_statesAll h l hi).mpr hl⟩

end Lib
