import Mathlib.Data.List.GetD
import Xv6.Lib.Bytes

/-!
Memory that is made of pages, as one array of bytes.

`flat` reads pages of `g` bytes by address, and `overlay` is an array with
a list of bytes copied into it. Storing inside a page is an overlay, and
pieces that are copied one after the other are one overlay.
-/

namespace Xv6.Lib

open Function

def overlay (φ : ℕ → UInt8) (a : ℕ) (bs : List UInt8) (x : ℕ) : UInt8 :=
  if a ≤ x ∧ x < a + bs.length then bs.getD (x - a) 0 else φ x

def flat {g : ℕ} (C : ℕ → Bytes g) (x : ℕ) : UInt8 := byte (C (x / g)) (x % g)

section
variable {φ : ℕ → UInt8} {a x i : ℕ} {bs : List UInt8}

theorem overlay_of_not (h : ¬(a ≤ x ∧ x < a + bs.length)) : overlay φ a bs x = φ x := if_neg h

theorem overlay_add (hi : i < bs.length) : overlay φ a bs (a + i) = bs.getD i 0 := by
  rw [overlay, if_pos (by omega), Nat.add_sub_cancel_left]

theorem overlay_nil : overlay φ a [] = φ := by
  funext x
  exact overlay_of_not (by simp only [List.length_nil]; omega)

theorem overlay_append (φ : ℕ → UInt8) (a : ℕ) (xs ys : List UInt8) :
    overlay (overlay φ a xs) (a + xs.length) ys = overlay φ a (xs ++ ys) := by
  funext x
  unfold overlay
  rw [List.length_append]
  by_cases hy : a + xs.length ≤ x ∧ x < a + xs.length + ys.length
  · rw [if_pos hy, if_pos (by omega), List.getD_append_right _ _ _ _ (by omega), Nat.sub_sub]
  · rw [if_neg hy]
    by_cases hx : a ≤ x ∧ x < a + xs.length
    · rw [if_pos hx, if_pos (by omega), List.getD_append _ _ _ _ (by omega)]
    · rw [if_neg hx, if_neg (by omega)]

end

section
variable {g : ℕ} {C C' : ℕ → Bytes g}

theorem flat_update (hg : 0 < g) {v off : ℕ} {bs : List UInt8} (h : off + bs.length ≤ g) :
    flat (update C v (patch (C v) off bs.length (bs.getD · 0))) =
      overlay (flat C) (v * g + off) bs := by
  funext x
  have hdiv := Nat.div_add_mod' x g
  have hmod := Nat.mod_lt x hg
  unfold flat overlay
  by_cases hx : x / g = v
  · rw [hx] at hdiv ⊢
    rw [update_self, byte_patch _ _ hmod]
    by_cases hin : off ≤ x % g ∧ x % g < off + bs.length
    · rw [if_pos hin, if_pos (by omega)]
      congr 1
      omega
    · rw [if_neg hin, if_neg (by omega)]
      show _ = byte (C (x / g)) (x % g)
      rw [hx]
  · rw [update_of_ne hx, if_neg]
    rintro ⟨h1, h2⟩
    refine hx (Nat.div_eq_of_lt_le (by omega) ?_)
    rw [Nat.succ_mul]
    omega

end

def overlays (φ : ℕ → UInt8) (ws : List (ℕ × List UInt8)) : ℕ → UInt8 :=
  ws.foldl (fun φ w => overlay φ w.1 w.2) φ

def Descending (ws : List (ℕ × List UInt8)) : Prop :=
  ws.Pairwise fun w w' => w'.1 + w'.2.length ≤ w.1

section
variable {φ : ℕ → UInt8} {ws : List (ℕ × List UInt8)} {w : ℕ × List UInt8} {x i : ℕ}

theorem overlays_of_not (h : ∀ w ∈ ws, ¬(w.1 ≤ x ∧ x < w.1 + w.2.length)) :
    overlays φ ws x = φ x := by
  induction ws generalizing φ with
  | nil => rfl
  | cons w ws ih =>
    have hrest := ih (φ := overlay φ w.1 w.2) fun w' hw' => h w' (List.mem_cons_of_mem w hw')
    exact hrest.trans (overlay_of_not (h w List.mem_cons_self))

theorem overlays_of_mem (h : Descending ws) (hw : w ∈ ws) (hi : i < w.2.length) :
    overlays φ ws (w.1 + i) = w.2.getD i 0 := by
  induction ws generalizing φ with
  | nil => exact absurd hw List.not_mem_nil
  | cons first ws ih =>
    obtain ⟨hfirst, hrest⟩ := List.pairwise_cons.1 h
    rcases List.mem_cons.1 hw with rfl | hmem
    · have hlast : overlays (overlay φ w.1 w.2) ws (w.1 + i) = overlay φ w.1 w.2 (w.1 + i) :=
        overlays_of_not fun w' hw' => by
          have hbelow := hfirst w' hw'
          omega
      exact hlast.trans (overlay_add hi)
    · exact ih hrest hmem

theorem overlays_concat : overlays φ (ws ++ [w]) = overlay (overlays φ ws) w.1 w.2 := by
  unfold overlays
  rw [List.foldl_append]
  rfl

end

def wordAt (φ : ℕ → UInt8) (a : ℕ) : ℕ := getLE (fun i : Fin 4 => φ (a + i)) 0 4

variable {φ : ℕ → UInt8} {a j k : ℕ} {ws : List ℕ}

theorem length_words : (ws.flatMap (digits 4)).length = 4 * ws.length := by
  induction ws with
  | nil => rfl
  | cons w ws ih =>
    rw [List.flatMap_cons, List.length_append, ih, List.length_cons]
    show 4 + _ = _
    omega

theorem getD_words (hj : j < ws.length) (hk : k < 4) :
    (ws.flatMap (digits 4)).getD (4 * j + k) 0 = UInt8.ofNat (ws.getD j 0 / 256 ^ k) := by
  induction ws generalizing j with
  | nil => exact absurd hj (Nat.not_lt_zero j)
  | cons w ws ih =>
    have hlen : (digits 4 w).length = 4 := rfl
    rw [List.flatMap_cons]
    cases j with
    | zero =>
      rw [List.getD_append _ _ _ _ (by omega), Nat.mul_zero, Nat.zero_add, digits,
        List.getD_eq_getElem?_getD, List.getElem?_map, List.getElem?_range hk]
      rfl
    | succ j =>
      rw [List.getD_append_right _ _ _ _ (by omega), hlen,
        show 4 * (j + 1) + k - 4 = 4 * j + k by omega]
      exact ih (Nat.lt_of_succ_lt_succ hj)

theorem wordAt_words (h : ∀ i < 4 * ws.length, φ (a + i) = (ws.flatMap (digits 4)).getD i 0)
    (hj : j < ws.length) (hlt : ws.getD j 0 < 2 ^ 32) : wordAt φ (a + 4 * j) = ws.getD j 0 := by
  have hdigits : ∀ k < 4, byte (fun i : Fin 4 => φ (a + 4 * j + i)) (0 + k) =
      UInt8.ofNat (ws.getD j 0 / 256 ^ k) := by
    intro k hk
    rw [Nat.zero_add, byte_of_lt _ hk, ← getD_words hj hk, ← h _ (by omega), Nat.add_assoc]
  exact (getLE_of_digits hdigits).trans (Nat.mod_eq_of_lt hlt)

end Xv6.Lib
