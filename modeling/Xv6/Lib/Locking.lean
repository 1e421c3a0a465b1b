import Mathlib.Data.List.Nodup
import Mathlib.Logic.Relation
import Xv6.Lib.Prog

namespace Xv6.Lib

open Function

variable {P τ ι ε σ α β Λ C : Type}

structure Conf (P τ ι ε σ α : Type) where
  st : σ
  lock : ι → Option P
  prog : P → Option (Prog τ ι ε σ α)
  halted : Bool

inductive Move (C : Type) where
  | call (c : C)
  | step
  deriving DecidableEq

namespace Conf

def wants (cf : Conf P τ ι ε σ α) (p : P) : Option (τ × ι) :=
  match cf.prog p with
  | some (.acquire t i _) => some (t, i)
  | _ => none

def WaitsFor (cf : Conf P τ ι ε σ α) (p q : P) : Prop :=
  (cf.wants p).bind (fun w => cf.lock w.2) = some q

instance [DecidableEq P] (cf : Conf P τ ι ε σ α) (p q : P) : Decidable (cf.WaitsFor p q) :=
  inferInstanceAs (Decidable (_ = _))

theorem waitsFor_iff {cf : Conf P τ ι ε σ α} {p q : P} :
    cf.WaitsFor p q ↔ ∃ t i, cf.wants p = some (t, i) ∧ cf.lock i = some q := by
  simp [WaitsFor, Option.bind_eq_some_iff]

variable [DecidableEq P] [DecidableEq ι]

def goOn (cf : Conf P τ ι ε σ α) (p : P) (x : Option (Prog τ ι ε σ α)) : Conf P τ ι ε σ α :=
  { cf with prog := update cf.prog p x }

def next (cf : Conf P τ ι ε σ α) (p : P) : Prog τ ι ε σ α → Option (Conf P τ ι ε σ α)
  | .pure _ => some (cf.goOn p none)
  | .panic _ => some { cf with halted := true }
  | .acquire _ i k =>
    if cf.lock i = none then
      some ({ cf with lock := update cf.lock i (some p) }.goOn p (some k))
    else none
  | .release i k => some ({ cf with lock := update cf.lock i none }.goOn p (some k))
  | .holding i k => some (cf.goOn p (some (k (decide (cf.lock i = some p)))))
  | .act f k => some ({ cf with st := f cf.st }.goOn p (some (k cf.st)))

def step (body : P → C → Prog τ ι ε σ α) (live : P → σ → Bool) (cf : Conf P τ ι ε σ α) :
    P × Move C → Option (Conf P τ ι ε σ α)
  | (p, m) =>
    if cf.halted then none
    else
      match m, cf.prog p with
      | .call c, none => if live p cf.st then some (cf.goOn p (some (body p c))) else none
      | .step, some x => cf.next p x
      | _, _ => none

theorem step_cases {body : P → C → Prog τ ι ε σ α} {live : P → σ → Bool}
    {cf cf' : Conf P τ ι ε σ α} {p : P} {m : Move C} (h : cf.step body live (p, m) = some cf') :
    (∃ c, m = .call c ∧ cf.prog p = none ∧ live p cf.st = true ∧
      cf' = cf.goOn p (some (body p c))) ∨
    ∃ x, m = .step ∧ cf.prog p = some x ∧ cf.next p x = some cf' := by
  simp only [step] at h
  by_cases hh : cf.halted = true
  · simp [hh] at h
  rw [if_neg hh] at h
  split at h
  · rename_i c hp
    by_cases hl : live p cf.st = true
    · rw [if_pos hl] at h
      exact .inl ⟨c, rfl, hp, hl, (Option.some.inj h).symm⟩
    · simp [hl] at h
  · rename_i x hp
    exact .inr ⟨x, rfl, hp, h⟩
  · cases h

end Conf

structure Discipline (P τ ι ε σ Λ : Type) [DecidableEq P] where
  may : ε → Prop
  law : (P → Λ) → σ → Prop
  inv : P → Λ → σ → Prop
  rely : P → Λ → List ι → σ → σ → Prop
  guar : P → Λ → List ι → σ → Λ → σ → Prop
  allow : σ → σ → Prop
  order : List ι → Option ι → τ → ι → σ → Prop
  rely_refl : ∀ p l H s, rely p l H s s
  rely_trans : ∀ {p l H s t u}, rely p l H s t → rely p l H t u → rely p l H s u
  inv_of_law : ∀ {l s}, law l s → ∀ p, inv p (l p) s
  law_step : ∀ {l s p H l' s'}, law l s → guar p (l p) H s l' s' → law (update l p l') s'
  rely_step : ∀ {l s p H l' s' q H'}, law l s → guar p (l p) H s l' s' → q ≠ p →
    List.Disjoint H H' → rely q (l q) H' s s'

namespace Discipline

variable [DecidableEq P] [DecidableEq ι] (D : Discipline P τ ι ε σ Λ) (p : P)

def Safe (Q : α → Λ → List ι → σ → Prop) :
    Prog τ ι ε σ α → Option ι → Λ → List ι → σ → Prop
  | .pure a, _, l, H, s => ∀ s', D.rely p l H s s' → D.inv p l s' → Q a l H s'
  | .panic e, _, l, H, s => ∀ s', D.rely p l H s s' → D.inv p l s' → D.may e
  | .acquire t i k, last, l, H, s => ∀ s', D.rely p l H s s' → D.inv p l s' →
      D.order H last t i s' ∧ (i ∉ H → Safe Q k none l (i :: H) s')
  | .release i k, _, l, H, s => ∀ s', D.rely p l H s s' → D.inv p l s' →
      i ∈ H ∧ Safe Q k (some i) l (H.erase i) s'
  | .holding i k, _, l, H, s => ∀ s', D.rely p l H s s' → D.inv p l s' →
      Safe Q (k (decide (i ∈ H))) none l H s'
  | .act f k, _, l, H, s => ∀ s', D.rely p l H s s' → D.inv p l s' → D.allow s' (f s') →
      ∃ l', D.guar p l H s' l' (f s') ∧ Safe Q (k s') none l' H (f s')

variable {D p} {Q : α → Λ → List ι → σ → Prop} {last : Option ι} {l : Λ} {H : List ι} {s s' : σ}
  {x : Prog τ ι ε σ α}

theorem Safe.rely (h : D.Safe p Q x last l H s)
    (hr : D.rely p l H s s') : D.Safe p Q x last l H s' := by
  cases x with
  | pure a => exact fun t ht hi => h t (D.rely_trans hr ht) hi
  | panic e => exact fun t ht hi => h t (D.rely_trans hr ht) hi
  | acquire t i k => exact fun t ht hi => h t (D.rely_trans hr ht) hi
  | release i k => exact fun t ht hi => h t (D.rely_trans hr ht) hi
  | holding i k => exact fun t ht hi => h t (D.rely_trans hr ht) hi
  | act f k => exact fun t ht hi => h t (D.rely_trans hr ht) hi

theorem Safe.intro (h : ∀ s', D.rely p l H s s' → D.inv p l s' → D.Safe p Q x last l H s') :
    D.Safe p Q x last l H s := by
  cases x with
  | pure a => exact fun s' hr hi => h s' hr hi s' (D.rely_refl ..) hi
  | panic e => exact fun s' hr hi => h s' hr hi s' (D.rely_refl ..) hi
  | acquire t i k => exact fun s' hr hi => h s' hr hi s' (D.rely_refl ..) hi
  | release i k => exact fun s' hr hi => h s' hr hi s' (D.rely_refl ..) hi
  | holding i k => exact fun s' hr hi => h s' hr hi s' (D.rely_refl ..) hi
  | act f k => exact fun s' hr hi => h s' hr hi s' (D.rely_refl ..) hi

theorem Safe.bind {k : α → Prog τ ι ε σ β} {Q : β → Λ → List ι → σ → Prop}
    (h : D.Safe p (fun a l H s => ∀ last, D.Safe p Q (k a) last l H s) x last l H s) :
    D.Safe p Q (x >>= k) last l H s := by
  show D.Safe p Q (x.bind k) last l H s
  induction x generalizing last l H s with
  | pure a => exact .intro fun s' hr hi => h s' hr hi last
  | panic e => exact h
  | acquire t i x ih =>
    intro s' hr hi
    obtain ⟨ho, hk⟩ := h s' hr hi
    exact ⟨ho, fun hH => ih (hk hH)⟩
  | release i x ih =>
    intro s' hr hi
    obtain ⟨hH, hk⟩ := h s' hr hi
    exact ⟨hH, ih hk⟩
  | holding i x ih => exact fun s' hr hi => ih _ (h s' hr hi)
  | act f x ih =>
    intro s' hr hi ha
    obtain ⟨l', hg, hk⟩ := h s' hr hi ha
    exact ⟨l', hg, ih s' hk⟩

end Discipline

structure Sound [DecidableEq P] [DecidableEq ι] (D : Discipline P τ ι ε σ Λ)
    (idle : P → Λ → σ → Prop) (gap : τ) (cf : Conf P τ ι ε σ α) (l : P → Λ) (H : P → List ι) :
    Prop where
  law : D.law l cf.st
  own : ∀ p i, cf.lock i = some p ↔ i ∈ H p
  nodup : ∀ p, (H p).Nodup
  rest : ∀ p, cf.prog p = none → H p = [] ∧ idle p (l p) cf.st
  safe : ∀ p x, cf.prog p = some x → ∃ last,
    D.Safe p (fun _ l H s => H = [] ∧ idle p l s) x last (l p) (H p) cf.st ∧
    ∀ i k, last = some i → x = .acquire gap i k → cf.lock i = none

def Clear (allow : σ → σ → Prop) (okCall : C → Prop) (gap : τ) (cf : Conf P τ ι ε σ α) :
    P × Move C → Prop
  | (_, .call c) => okCall c
  | (p, .step) =>
    (∀ t i, cf.wants p = some (t, i) → ∀ q, q ≠ p → cf.wants q ≠ some (gap, i)) ∧
    ∀ f k, cf.prog p = some (.act f k) → allow cf.st (f cf.st)

namespace Sound

variable [DecidableEq P] [DecidableEq ι] {D : Discipline P τ ι ε σ Λ}
  {idle : P → Λ → σ → Prop} {gap : τ} {cf cf' : Conf P τ ι ε σ α} {l : P → Λ} {H : P → List ι}
  {p : P}

section
variable (h : Sound D idle gap cf l H)
  (hidle : ∀ p l s s', idle p l s → D.rely p l [] s s' → idle p l s')
include h hidle

theorem move (l' : Λ) (H' : List ι)
    {st' : σ} {lock' : ι → Option P} {x' : Option (Prog τ ι ε σ α)} {halted : Bool}
    (hlaw : D.law (update l p l') st')
    (hrely : ∀ q, q ≠ p → D.rely q (l q) (H q) cf.st st')
    (hmine : ∀ i, lock' i = some p ↔ i ∈ H')
    (hothers : ∀ q, q ≠ p → ∀ i, lock' i = some q ↔ cf.lock i = some q) (hnodup : H'.Nodup)
    (hgap : ∀ q i, q ≠ p → cf.wants q = some (gap, i) → cf.lock i = none → lock' i = none)
    (hrest : x' = none → H' = [] ∧ idle p l' st')
    (hsafe : ∀ x, x' = some x → ∃ last,
      D.Safe p (fun _ l H s => H = [] ∧ idle p l s) x last l' H' st' ∧
      ∀ i k, last = some i → x = .acquire gap i k → lock' i = none) :
    Sound D idle gap ⟨st', lock', update cf.prog p x', halted⟩ (update l p l')
      (update H p H') where
  law := hlaw
  own q i := by
    by_cases hq : q = p
    · subst hq
      simpa using hmine i
    · rw [update_of_ne hq]
      exact (hothers q hq i).trans (h.own q i)
  nodup q := by
    by_cases hq : q = p
    · subst hq
      simpa using hnodup
    · simpa [hq] using h.nodup q
  rest q hx := by
    by_cases hq : q = p
    · subst hq
      simpa using hrest (by simpa using hx)
    simp only [update_of_ne hq] at hx ⊢
    obtain ⟨hH, hi⟩ := h.rest q hx
    have hr := hrely q hq
    rw [hH] at hr
    exact ⟨hH, hidle _ _ _ _ hi hr⟩
  safe q x hx := by
    by_cases hq : q = p
    · subst hq
      simpa using hsafe x (by simpa using hx)
    simp only [update_of_ne hq] at hx ⊢
    obtain ⟨last, hs, hl⟩ := h.safe q x hx
    refine ⟨last, hs.rely (hrely q hq), fun i k hi hk => ?_⟩
    refine hgap q i hq ?_ (hl i k hi hk)
    simp [Conf.wants, hx, hk]

theorem move_same (H' : List ι)
    {lock' : ι → Option P} {x' : Option (Prog τ ι ε σ α)} {halted : Bool}
    (hmine : ∀ i, lock' i = some p ↔ i ∈ H')
    (hothers : ∀ q, q ≠ p → ∀ i, lock' i = some q ↔ cf.lock i = some q) (hnodup : H'.Nodup)
    (hgap : ∀ q i, q ≠ p → cf.wants q = some (gap, i) → cf.lock i = none → lock' i = none)
    (hrest : x' = none → H' = [] ∧ idle p (l p) cf.st)
    (hsafe : ∀ x, x' = some x → ∃ last,
      D.Safe p (fun _ l H s => H = [] ∧ idle p l s) x last (l p) H' cf.st ∧
      ∀ i k, last = some i → x = .acquire gap i k → lock' i = none) :
    ∃ l H, Sound D idle gap ⟨cf.st, lock', update cf.prog p x', halted⟩ l H := by
  refine ⟨_, _, h.move hidle (l p) H' ?_ (fun q _ => D.rely_refl ..) hmine hothers hnodup hgap
    hrest hsafe⟩
  rw [update_eq_self]
  exact h.law

theorem next (hgap : ∀ H last i s, D.order H last gap i s → last = some i) {x : Prog τ ι ε σ α}
    (hp : cf.prog p = some x) {okCall : C → Prop} (hclear : Clear D.allow okCall gap cf (p, .step))
    (hn : cf.next p x = some cf') : ∃ l H, Sound D idle gap cf' l H := by
  obtain ⟨last, hs, hlast⟩ := h.safe p x hp
  have hr : D.rely p (l p) (H p) cf.st cf.st := D.rely_refl ..
  have hi := D.inv_of_law h.law p
  have hstart : ∀ {x' : Prog τ ι ε σ α} {st' l' H' i k},
      D.Safe p (fun _ l H s => H = [] ∧ idle p l s) x' none l' H' st' → D.inv p l' st' →
      x' = .acquire gap i k → False := by
    intro x' st' l' H' i k hx hi hk
    subst hk
    cases hgap _ _ _ _ (hx st' (D.rely_refl ..) hi).1
  cases x with
  | pure a =>
    cases hn
    have hend := hs cf.st hr hi
    exact h.move_same hidle (H p) (h.own p) (fun _ _ _ => .rfl) (h.nodup p)
      (fun _ _ _ _ h => h) (fun _ => hend) (by simp)
  | panic e =>
    cases hn
    have hsame : ∃ l H, Sound D idle gap ⟨cf.st, cf.lock, update cf.prog p (cf.prog p), true⟩ l H :=
      h.move_same hidle (H p) (h.own p) (fun _ _ _ => .rfl) (h.nodup p)
        (fun _ _ _ _ h => h) (by simp [hp]) (fun y hy => by
          obtain rfl : .panic e = y := Option.some.inj (hp.symm.trans hy)
          exact ⟨last, hs, by simp⟩)
    rwa [update_eq_self] at hsame
  | acquire t i k =>
    obtain ⟨ho, hk⟩ := hs cf.st hr hi
    simp only [Conf.next] at hn
    by_cases hfree : cf.lock i = none
    · rw [if_pos hfree] at hn
      cases hn
      have hiH : i ∉ H p := fun hm => by
        rw [(h.own p i).2 hm] at hfree
        cases hfree
      refine h.move_same hidle (i :: H p) (fun j => ?_) (fun q hq j => ?_)
        (List.nodup_cons.2 ⟨hiH, h.nodup p⟩) (fun q j hq hw hj => ?_) (by simp) ?_
      · by_cases hj : j = i
        · simp [hj]
        · simpa [hj] using h.own p j
      · by_cases hj : j = i
        · subst hj
          simp [hfree, Ne.symm hq]
        · simp [hj]
      · by_cases hji : j = i
        · subst hji
          exact absurd hw (hclear.1 t j (by simp [Conf.wants, hp]) q hq)
        · simpa [hji] using hj
      · rintro y ⟨⟩
        exact ⟨none, hk hiH, by simp⟩
    · simp [hfree] at hn
  | release i k =>
    obtain ⟨hiH, hk⟩ := hs cf.st hr hi
    cases hn
    have hlock := (h.own p i).2 hiH
    refine h.move_same hidle ((H p).erase i) (fun j => ?_) (fun q hq j => ?_)
      ((h.nodup p).erase i) (fun q j hq hw hj => ?_) (by simp) ?_
    · rw [(h.nodup p).mem_erase_iff]
      by_cases hj : j = i
      · simp [hj]
      · simpa [hj] using h.own p j
    · by_cases hj : j = i
      · subst hj
        simp [hlock, Ne.symm hq]
      · simp [hj]
    · by_cases hji : j = i
      · simp [hji]
      · simpa [hji] using hj
    · rintro y ⟨⟩
      refine ⟨some i, hk, fun j k' hj hk' => ?_⟩
      cases hj
      simp
  | holding i k =>
    cases hn
    have hdec : decide (cf.lock i = some p) = decide (i ∈ H p) := decide_eq_decide.2 (h.own p i)
    have hk := hs cf.st hr hi
    rw [← hdec] at hk
    refine h.move_same hidle (H p) (h.own p) (fun _ _ _ => .rfl) (h.nodup p)
      (fun _ _ _ _ h => h) (by simp) ?_
    rintro y ⟨⟩
    exact ⟨none, hk, by simp⟩
  | act f k =>
    cases hn
    obtain ⟨l', hg, hk⟩ := hs cf.st hr hi (hclear.2 f k hp)
    refine ⟨_, _, h.move hidle l' (H p) (D.law_step h.law hg)
      (fun q hq => D.rely_step h.law hg hq fun j hj hj' => ?_) (h.own p)
      (fun _ _ _ => .rfl) (h.nodup p) (fun _ _ _ _ h => h) (by simp) ?_⟩
    · have := ((h.own p j).2 hj).symm.trans ((h.own q j).2 hj')
      exact hq (Option.some.inj this).symm
    · rintro y ⟨⟩
      exact ⟨none, hk, by simp⟩

end

theorem step {body : P → C → Prog τ ι ε σ α} {live : P → σ → Bool} {okCall : C → Prop}
    (hidle : ∀ p l s s', idle p l s → D.rely p l [] s s' → idle p l s')
    (hgap : ∀ H last i s, D.order H last gap i s → last = some i)
    (hbody : ∀ p c l s, okCall c → live p s = true → idle p l s → D.inv p l s →
      D.Safe p (fun _ l H s => H = [] ∧ idle p l s) (body p c) none l [] s)
    (h : Sound D idle gap cf l H) {m : Move C} (hclear : Clear D.allow okCall gap cf (p, m))
    (hs : cf.step body live (p, m) = some cf') : ∃ l H, Sound D idle gap cf' l H := by
  rcases Conf.step_cases hs with ⟨c, rfl, hp, hl, rfl⟩ | ⟨x, rfl, hp, hn⟩
  · obtain ⟨hH, hi⟩ := h.rest p hp
    have hb := hbody p c (l p) cf.st hclear hl hi (D.inv_of_law h.law p)
    refine h.move_same hidle (H p) (h.own p) (fun _ _ _ => .rfl) (h.nodup p)
      (fun _ _ _ _ h => h) (by simp) ?_
    rintro y ⟨⟩
    exact ⟨none, hH ▸ hb, by simp⟩
  · exact h.next hidle hgap hp hclear hn

theorem order (h : Sound D idle gap cf l H) {t : τ} {i : ι} (hw : cf.wants p = some (t, i)) :
    ∃ last, D.order (H p) last t i cf.st ∧ (t = gap → last = some i → cf.lock i = none) := by
  unfold Conf.wants at hw
  split at hw
  · rename_i k hp
    cases hw
    obtain ⟨last, hs, hlast⟩ := h.safe p _ hp
    exact ⟨last, (hs cf.st (D.rely_refl ..) (D.inv_of_law h.law p)).1,
      fun ht hl => hlast i k hl (ht ▸ rfl)⟩
  · cases hw

variable {inner : σ → ι → Prop} {below : σ → ι → ι → Prop}

theorem below_of_waits (h : Sound D idle gap cf l H)
    (hgap : ∀ H last i s, D.order H last gap i s → last = some i)
    (horder : ∀ H last t i s, t ≠ gap → D.order H last t i s →
      ∀ j ∈ H, inner s j ∧ (inner s i → below s j i))
    {q r u : P} {i j : ι} {t t' : τ} (hpq : cf.WaitsFor p q) (hp : cf.wants p = some (t, i))
    (hqr : cf.WaitsFor q r) (hq : cf.wants q = some (t', j)) (hru : cf.WaitsFor r u) :
    below cf.st i j := by
  have hord : ∀ {p q : P} {t i}, cf.wants p = some (t, i) → cf.lock i = some q →
      ∀ j ∈ H p, inner cf.st j ∧ (inner cf.st i → below cf.st j i) := by
    intro p q t i hw hl
    obtain ⟨last, ho, hfree⟩ := h.order hw
    refine horder _ last t i _ ?_ ho
    rintro rfl
    rw [hfree rfl (hgap _ _ _ _ ho)] at hl
    cases hl
  obtain ⟨_, i', hp', hi⟩ := Conf.waitsFor_iff.1 hpq
  cases hp.symm.trans hp'
  obtain ⟨_, j', hq', hj⟩ := Conf.waitsFor_iff.1 hqr
  cases hq.symm.trans hq'
  obtain ⟨_, k, hr, hk⟩ := Conf.waitsFor_iff.1 hru
  have hinner := (hord hr hk j ((h.own r j).1 hj)).1
  exact (hord hq hj i ((h.own q i).1 hi)).2 hinner

variable (inner below) in
theorem no_cycle (h : Sound D idle gap cf l H)
    (hgap : ∀ H last i s, D.order H last gap i s → last = some i)
    (horder : ∀ H last t i s, t ≠ gap → D.order H last t i s →
      ∀ j ∈ H, inner s j ∧ (inner s i → below s j i))
    (hirrefl : ∀ s i, ¬ below s i i) (htrans : ∀ s i j k, below s i j → below s j k → below s i k)
    (p : P) : ¬ Relation.TransGen cf.WaitsFor p p := by
  intro hpp
  have hnext : ∀ q, Relation.TransGen cf.WaitsFor q p →
      ∃ r, cf.WaitsFor q r ∧ Relation.TransGen cf.WaitsFor r p := by
    intro q hq
    obtain ⟨r, hqr, hrp⟩ := Relation.TransGen.head'_iff.1 hq
    rcases Relation.reflTransGen_iff_eq_or_transGen.1 hrp with rfl | hrp
    · exact ⟨_, hqr, hpp⟩
    · exact ⟨r, hqr, hrp⟩
  have hedge : ∀ {q r : P}, cf.WaitsFor q r → Relation.TransGen cf.WaitsFor r p →
      ∀ {t t' i j}, cf.wants q = some (t, i) → cf.wants r = some (t', j) → below cf.st i j := by
    intro q r hqr hrp t t' i j hq hr
    obtain ⟨u, hru, hup⟩ := hnext r hrp
    obtain ⟨v, huv, -⟩ := hnext u hup
    exact h.below_of_waits hgap horder hqr hq hru hr huv
  have hup : ∀ {q : P}, Relation.TransGen cf.WaitsFor p q → Relation.TransGen cf.WaitsFor q p →
      ∀ {t t' i j}, cf.wants p = some (t, i) → cf.wants q = some (t', j) → below cf.st i j := by
    intro q hpq
    induction hpq with
    | single hpq => exact fun hqp _ _ _ _ => hedge hpq hqp
    | tail hpb hbq ih =>
      intro hqp t t' i j hp hq
      obtain ⟨_, k, hb, -⟩ := Conf.waitsFor_iff.1 hbq
      exact htrans _ i k j (ih (.head hbq hqp) hp hb) (hedge hbq hqp hb hq)
  obtain ⟨q, hpq, -⟩ := hnext p hpp
  obtain ⟨t, i, hp, -⟩ := Conf.waitsFor_iff.1 hpq
  exact hirrefl _ i (hup hpp hpp hp hp)

end Sound

end Xv6.Lib
