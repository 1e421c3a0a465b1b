import Mathlib.Algebra.Order.Group.Multiset
import Xv6.Lib.Linked
import Xv6.Lib.Triple
import Xv6.Param

/-!
Physical memory and its allocator, `kalloc.c`.

Memory is an array of pages, and a page is named by its number. The free
list is threaded through the free pages: `kmem.freelist` and the first
word of each free page hold kernel addresses. `kalloc` can be told to
fail by `fails`, one answer for each of the next calls.

`Work` is what the functions of `vm.c` are specified with. A function
works on a stock `M` of pages: at any time each page of `M` is free or
among the pages `X` that the function has in its hands, and no page
outside of `M` is written. So a function that returns all it took has
`Work` with the same `X` before and after.
-/

namespace Xv6.Vm

open Lib Function
open Multiset (add_cons coe_nil cons_add cons_coe)

abbrev PHYSTOP : ℕ := 0xE000

abbrev Mem := ℕ → Bytes PGSIZE

structure Layout where
  data : ℕ
  kend : ℕ
  data_gt : 0x100 < data
  data_lt : data < kend
  kend_le : kend ≤ PHYSTOP

inductive Panic where
  | kfree | remap | freevm | copyuvm | loaduvm | clearpteu | inituvm | fault | null
  | userinit | exiting | filedup | fileclose
  deriving DecidableEq, Repr

structure Phys where
  mem : Mem
  freelist : ℕ
  fails : List Bool

abbrev Op (α : Type) := Prog Empty Empty Panic Phys α

def entry (b : Bytes PGSIZE) (i : ℕ) : ℕ := getLE b (4 * i) 4

def setEntry (b : Bytes PGSIZE) (i w : ℕ) : Bytes PGSIZE := setLE b (4 * i) 4 w

theorem entry_lt (b : Bytes PGSIZE) (i : ℕ) : entry b i < 2 ^ 32 := getLE_lt b (4 * i) 4

theorem entry_setEntry (b : Bytes PGSIZE) {i w : ℕ} (hi : i < 1024) (hw : w < 2 ^ 32) :
    entry (setEntry b i w) i = w := by
  have h := getLE_setLE b (o := 4 * i) (w := 4) w (by simp only [PGSIZE]; omega)
  rw [entry, setEntry, h]
  exact Nat.mod_eq_of_lt hw

theorem entry_setEntry_of_ne (b : Bytes PGSIZE) {i j : ℕ} (w : ℕ) (h : i ≠ j) :
    entry (setEntry b j w) i = entry b i :=
  getLE_setLE_of_disjoint b w (by omega)

@[simp] theorem entry_zeros (i : ℕ) : entry zeros i = 0 := getLE_zeros _ _

theorem entry_eq_zero (b : Bytes PGSIZE) {i : ℕ} (hi : 1024 ≤ i) : entry b i = 0 := by
  have h : entry b i = entry zeros i := by
    refine getLE_congr fun j hj _ => ?_
    rw [byte_zeros, byte, dif_neg (by simp only [PGSIZE]; omega)]
  rw [h, entry_zeros]

def kva (f : ℕ) : ℕ := KERNBASE + PGSIZE * f

theorem kva_ne_zero (f : ℕ) : kva f ≠ 0 := by
  unfold kva
  simp only [KERNBASE]
  omega

def next (m : Mem) (f : ℕ) : ℕ := entry (m f) 0

variable (k : Layout)

def Layout.Ok (f : ℕ) : Prop := k.kend ≤ f ∧ f < PHYSTOP

def Layout.pageAt (w : ℕ) : Option ℕ :=
  if w % PGSIZE = 0 ∧ kva k.kend ≤ w ∧ w < kva PHYSTOP then some ((w - KERNBASE) / PGSIZE)
  else none

def failNow : Op Bool :=
  .act (fun s => { s with fails := s.fails.tail }) fun s => .pure (s.fails.headD false)

def kalloc : Op (Option ℕ) := do
  if ← failNow then pure none
  else
    let r ← .read fun s => s.freelist
    if r = 0 then pure none
    else
      match k.pageAt r with
      | none => .panic .fault
      | some f => do
          .modify fun s => { s with freelist := next s.mem f }
          pure (some f)

def Phys.setPage (s : Phys) (f : ℕ) (b : Bytes PGSIZE) : Phys :=
  { s with mem := update s.mem f b }

theorem Phys.setPage_self (s : Phys) (f : ℕ) (b : Bytes PGSIZE) : (s.setPage f b).mem f = b :=
  update_self ..

theorem Phys.setPage_of_ne (s : Phys) {f g : ℕ} (b : Bytes PGSIZE) (h : g ≠ f) :
    (s.setPage f b).mem g = s.mem g := update_of_ne h ..

def kfree (f : ℕ) : Op Unit :=
  if f < k.kend ∨ PHYSTOP ≤ f then .panic .kfree
  else .modify fun s =>
    { s.setPage f (setEntry (fun _ => 1) 0 s.freelist) with freelist := kva f }

def freerange : ℕ → ℕ → Op Unit
  | _, 0 => pure ()
  | f, n + 1 => do
      kfree k f
      freerange (f + 1) n

def clear (f : ℕ) : Op Unit := .modify fun s => s.setPage f zeros

def Phys.Free (s : Phys) (l : List ℕ) : Prop := Linked kva 0 (next s.mem) s.freelist l

structure Work (F : Prop) (M : Multiset ℕ) (m₀ : Mem) (X : Multiset ℕ) (s : Phys) : Prop where
  free : ∃ l : List ℕ, s.Free l ∧ (l : Multiset ℕ) + X = M
  rest : ∀ f, f ∉ M → s.mem f = m₀ f
  calm : ¬F → s.fails = []

variable {k} {F : Prop} {M X : Multiset ℕ} {m0 : Mem} {s : Phys} {f : ℕ}

theorem Phys.Free.work {l : List ℕ} (hl : s.Free l) : Work True (l : Multiset ℕ) s.mem 0 s :=
  ⟨⟨l, hl, add_zero _⟩, fun _ _ => rfl, fun h => absurd trivial h⟩

theorem Phys.Free.calm {l : List ℕ} (hl : s.Free l) (h : s.fails = []) :
    Work False (l : Multiset ℕ) s.mem 0 s := ⟨⟨l, hl, add_zero _⟩, fun _ _ => rfl, fun _ => h⟩

theorem Layout.pageAt_kva (h : k.Ok f) : k.pageAt (kva f) = some f := by
  have hk := h.1
  have hp := h.2
  unfold Layout.pageAt kva
  simp only [KERNBASE, PGSIZE, PHYSTOP] at *
  rw [if_pos (by omega)]
  congr 1
  omega

theorem Work.setPage (h : Work F M m0 X s) (hM : M.Nodup) (hf : f ∈ X) (b : Bytes PGSIZE) :
    Work F M m0 X (s.setPage f b) := by
  obtain ⟨l, hl, hsum⟩ := h.free
  have hfM : f ∈ M := hsum ▸ Multiset.mem_add.2 (.inr hf)
  have hdisj := (Multiset.nodup_add.1 (hsum ▸ hM)).2.2
  refine ⟨⟨l, hl.congr fun a ha => ?_, hsum⟩, fun g hg => ?_, h.calm⟩
  · have hne : a ≠ f := fun heq => Multiset.disjoint_left.1 hdisj (Multiset.mem_coe.2 ha) (heq ▸ hf)
    rw [next, next, s.setPage_of_ne b hne]
  · have hne : g ≠ f := fun heq => hg (heq ▸ hfM)
    rw [s.setPage_of_ne b hne]
    exact h.rest g hg

theorem of_mem {α : Type} {R : Phys → Prop} {x : Op α} {Q : α → Phys → Prop}
    {E : Panic → Phys → Prop}
    (h : ∀ m, Triple (fun s => R s ∧ s.mem = m) x Q E) : Triple R x Q E :=
  ⟨fun s hs => (h s.mem).ends s ⟨hs, rfl⟩⟩

theorem Work.of_eq {Y : Multiset ℕ} (h : Work F M m0 X s) (hXY : X = Y) : Work F M m0 Y s :=
  hXY ▸ h

variable (hM : M.Nodup) (hok : ∀ f ∈ M, k.Ok f)
include hM hok

theorem kalloc_spec (m : Mem) :
    Triple (fun s => Work F M m0 X s ∧ s.mem = m) (kalloc k)
      (fun r s => s.mem = m ∧
        match r with
        | none => Work F M m0 X s ∧ (F ∨ X = M)
        | some f => Work F M m0 (f ::ₘ X) s ∧ f ∉ X ∧ f ∈ M)
      Never := by
  refine .bind (R := fun b s => (Work F M m0 X s ∧ s.mem = m) ∧ (b = true → F)) ?_
    fun b => .ite (fun hb => .pure fun s hs => ?_) fun hb => ?_
  · constructor
    intro s hs
    refine ⟨⟨⟨hs.1.free, hs.1.rest, fun hF => ?_⟩, hs.2⟩, fun hb => ?_⟩
    · show s.fails.tail = []
      rw [hs.1.calm hF]
      rfl
    · by_contra hF
      rw [hs.1.calm hF] at hb
      exact absurd hb (by decide)
  · exact ⟨hs.1.2, hs.1.1, .inl (hs.2 hb)⟩
  · refine .bind (R := fun r s => (Work F M m0 X s ∧ s.mem = m) ∧ s.freelist = r)
      (.read fun s hs => ⟨hs.1, rfl⟩) fun r =>
      Prog.Triple.ite (fun hr => .pure fun s hs => ?_) fun hr => ⟨fun s hs => ?_⟩
    · obtain ⟨l, hl, hsum⟩ := hs.1.1.free
      rw [Phys.Free, hs.2, hr] at hl
      have hnil := hl.eq_nil kva_ne_zero
      refine ⟨hs.1.2, hs.1.1, .inr ?_⟩
      rw [← hsum, hnil, coe_nil, zero_add]
    obtain ⟨l, hl, hsum⟩ := hs.1.1.free
    rw [Phys.Free, hs.2] at hl
    obtain ⟨f, l', rfl, hptr, hl'⟩ := hl.pop hr
    have hfM : f ∈ M := by
      rw [← hsum]
      exact Multiset.mem_add.2 (.inl (List.mem_cons_self ..))
    have hsum' : (l' : Multiset ℕ) + (f ::ₘ X) = M := by
      rw [← hsum, ← cons_coe, cons_add, add_cons]
    have hfX : f ∉ X := by
      have hnd := (Multiset.nodup_add.1 (hsum' ▸ hM)).2.1
      exact (Multiset.nodup_cons.1 hnd).1
    rw [hptr, Layout.pageAt_kva (hok f hfM)]
    exact ⟨hs.1.2, ⟨⟨l', hl', hsum'⟩, hs.1.1.rest, hs.1.1.calm⟩, hfX, hfM⟩

theorem kfree_spec (hfM : f ∈ M) (m : Mem) :
    Triple (fun s => Work F M m0 (f ::ₘ X) s ∧ s.mem = m) (kfree k f)
      (fun _ s => Work F M m0 X s ∧ ∀ g, g ≠ f → s.mem g = m g) Never := by
  obtain ⟨hlo, hhi⟩ := hok f hfM
  refine .ite (fun h => absurd h (by omega)) fun _ => .modify fun s hs => ?_
  obtain ⟨⟨l, hl, hsum⟩, hrest, hcalm⟩ := hs.1
  have hsum' : ((f :: l : List ℕ) : Multiset ℕ) + X = M := by
    rw [← hsum, ← cons_coe, cons_add, add_cons]
  have hfl : f ∉ l := by
    have hnd := (Multiset.nodup_add.1 (hsum' ▸ hM)).1
    exact (List.nodup_cons.1 (Multiset.coe_nodup.1 hnd)).1
  have hmem : ∀ g, g ≠ f → update s.mem f (setEntry (fun _ => 1) 0 s.freelist) g
      = s.mem g := fun g hg => update_of_ne hg _ _
  refine ⟨⟨⟨f :: l, ?_, hsum'⟩, fun g hg => ?_, hcalm⟩, fun g hg => ?_⟩
  · refine .push (w := s.freelist) ?_ ?_
    · refine .congr hl fun a ha => ?_
      rw [next, next]
      exact congrArg (entry · 0) (hmem a fun h => hfl (h ▸ ha))
    show entry (update s.mem f (setEntry (fun _ => 1) 0 s.freelist) f) 0 = s.freelist
    rw [update_self]
    refine entry_setEntry _ (by omega) ?_
    cases l with
    | nil =>
      rw [show s.freelist = 0 from hl]
      omega
    | cons a l =>
      have hak : k.Ok a := hok a (by
        rw [← hsum]
        exact Multiset.mem_add.2 (.inl (List.mem_cons_self ..)))
      have ha := hak.2
      rw [show s.freelist = kva a from hl.1, kva]
      simp only [KERNBASE, PGSIZE, PHYSTOP] at *
      omega
  · exact (hmem g fun h => hg (h ▸ hfM)).trans (hrest g hg)
  · rw [← hs.2]
    exact hmem g hg

theorem freerange_spec {n : ℕ}
    (hf : ∀ g, f ≤ g → g < f + n → g ∈ M) :
    Triple (Work F M m0 ((List.range' f n : Multiset ℕ) + X)) (freerange k f n)
      (fun _ => Work F M m0 X) Never := by
  induction n generalizing f with
  | zero =>
    refine .pure fun s hs => hs.of_eq ?_
    rw [List.range'_zero, coe_nil, zero_add]
  | succ n ih =>
    refine .bind (R := fun _ => Work F M m0 ((List.range' (f + 1) n : Multiset ℕ) + X))
      (.of_state fun s hs => ?_) fun _ => ih fun g h1 h2 => hf g (by omega) (by omega)
    have hstart : ∀ s', s' = s →
        Work F M m0 (f ::ₘ ((List.range' (f + 1) n : Multiset ℕ) + X)) s' ∧ s'.mem = s.mem := by
      rintro _ rfl
      refine ⟨hs.of_eq ?_, rfl⟩
      rw [List.range'_succ, ← cons_coe, cons_add]
    exact ((kfree_spec hM hok (hf f le_rfl (by omega)) s.mem).pre hstart).post fun _ _ h => h.1

end Xv6.Vm
