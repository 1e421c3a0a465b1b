import Mathlib.Computability.Language

/-!
The matcher of `grep` (`grep.c`).

A C string is the list of its bytes before the terminator, so the end of a list
is where the source reads a zero. Both recursions are structural: `matchhere`
on the pattern, the loops of `matchstar` and `match` on the text.

What a pattern means is said by a language for the part of the text that is
matched, and by whether that part has to reach the end of the text.
-/

namespace Xv6.Grep

abbrev chr (c : Char) : UInt8 := c.toUInt8

def accepts (c x : UInt8) : Bool := c == chr '.' || c == x

def matchone (matchhere : List UInt8 → Bool) (c : UInt8) : List UInt8 → Bool
  | [] => false
  | x :: text => accepts c x && matchhere text

def matchstar (matchhere : List UInt8 → Bool) (c : UInt8) : List UInt8 → Bool
  | [] => matchhere []
  | x :: text => matchhere (x :: text) || (accepts c x && matchstar matchhere c text)

def matchhere : List UInt8 → List UInt8 → Bool
  | [], _ => true
  | [c], text => if c = chr '$' then text.isEmpty else matchone (matchhere []) c text
  | c :: d :: re, text =>
    if d = chr '*' then matchstar (matchhere re) c text else matchone (matchhere (d :: re)) c text

def search (re : List UInt8) : List UInt8 → Bool
  | [] => matchhere re []
  | x :: text => matchhere re (x :: text) || search re text

def «match» : List UInt8 → List UInt8 → Bool
  | [], text => search [] text
  | c :: re, text => if c = chr '^' then matchhere re text else search (c :: re) text

/-! ### What a pattern means -/

def one (c : UInt8) : Language UInt8 := {w | ∃ x, w = [x] ∧ accepts c x = true}

def many (c : UInt8) : Language UInt8 := {w | ∀ x ∈ w, accepts c x = true}

def lang : List UInt8 → Language UInt8
  | [] => 1
  | [c] => if c = chr '$' then 1 else one c
  | c :: d :: re => if d = chr '*' then many c * lang re else one c * lang (d :: re)

def toEnd : List UInt8 → Bool
  | [] => false
  | [c] => c = chr '$'
  | _ :: d :: re => if d = chr '*' then toEnd re else toEnd (d :: re)

def Begins (re text : List UInt8) : Prop :=
  ∃ w rest, w ++ rest = text ∧ w ∈ lang re ∧ (toEnd re = true → rest = [])

def Occurs (re text : List UInt8) : Prop := ∃ before after, before ++ after = text ∧ Begins re after

variable {c : UInt8} {re text : List UInt8}

theorem begins_mul (re' : List UInt8) (l : Language UInt8) (hl : lang re = l * lang re')
    (he : toEnd re = toEnd re') : Begins re text ↔ ∃ u v, u ++ v = text ∧ u ∈ l ∧ Begins re' v := by
  constructor
  · rintro ⟨w, rest, rfl, hw, hend⟩
    rw [hl, Language.mem_mul] at hw
    obtain ⟨u, hu, w', hw', rfl⟩ := hw
    exact ⟨u, w' ++ rest, by simp, hu, w', rest, rfl, hw', he ▸ hend⟩
  · rintro ⟨u, v, rfl, hu, w', rest, rfl, hw', hend⟩
    refine ⟨u ++ w', rest, by simp, ?_, he ▸ hend⟩
    rw [hl, Language.mem_mul]
    exact ⟨u, hu, w', hw', rfl⟩

theorem matchone_iff (here : List UInt8 → Bool) :
    matchone here c text = true ↔ ∃ u v, u ++ v = text ∧ u ∈ one c ∧ here v = true := by
  constructor
  · intro h
    cases text with
    | nil => cases h
    | cons x text =>
      simp only [matchone, Bool.and_eq_true] at h
      exact ⟨[x], text, rfl, ⟨x, rfl, h.1⟩, h.2⟩
  · rintro ⟨u, v, rfl, ⟨x, rfl, hx⟩, hv⟩
    simp [matchone, hx, hv]

theorem matchstar_iff (here : List UInt8 → Bool) :
    matchstar here c text = true ↔ ∃ u v, u ++ v = text ∧ u ∈ many c ∧ here v = true := by
  have hnil : ([] : List UInt8) ∈ many c := fun _ hx => absurd hx List.not_mem_nil
  induction text with
  | nil =>
    refine ⟨fun h => ⟨[], [], rfl, hnil, h⟩, ?_⟩
    rintro ⟨u, v, huv, -, hv⟩
    obtain ⟨rfl, rfl⟩ := List.append_eq_nil_iff.1 huv
    exact hv
  | cons x text ih =>
    simp only [matchstar, Bool.or_eq_true, Bool.and_eq_true, ih]
    constructor
    · rintro (h | ⟨hx, u, v, rfl, hu, hv⟩)
      · exact ⟨[], x :: text, rfl, hnil, h⟩
      · exact ⟨x :: u, v, rfl, List.forall_mem_cons.2 ⟨hx, hu⟩, hv⟩
    rintro ⟨u, v, huv, hu, hv⟩
    cases u with
    | nil => exact .inl (huv ▸ hv)
    | cons y u =>
      obtain ⟨rfl, rfl⟩ := List.cons.inj huv
      obtain ⟨hy, hu⟩ := List.forall_mem_cons.1 hu
      exact .inr ⟨hy, u, v, rfl, hu, hv⟩

theorem matchhere_iff (re text : List UInt8) : matchhere re text = true ↔ Begins re text := by
  induction re using lang.induct generalizing text with
  | case1 => simp [matchhere, Begins, lang, toEnd, Language.mem_one]
  | case2 => simp [matchhere, Begins, lang, toEnd, Language.mem_one]
  | case3 c hc =>
    rw [matchhere, if_neg hc, matchone_iff,
      begins_mul [] (one c) (by simp [lang, hc]) (by simp [toEnd, hc])]
    simp [matchhere, Begins, lang, toEnd, Language.mem_one]
  | case4 c re ih =>
    rw [matchhere, if_pos rfl, matchstar_iff,
      begins_mul re (many c) (by simp [lang]) (by simp [toEnd])]
    simp only [ih]
  | case5 c d re hd ih =>
    rw [matchhere, if_neg hd, matchone_iff,
      begins_mul (d :: re) (one c) (by simp [lang, hd]) (by simp [toEnd, hd])]
    simp only [ih]

theorem search_iff : search re text = true ↔ Occurs re text := by
  induction text with
  | nil => simp [search, Occurs, matchhere_iff]
  | cons x text ih =>
    simp only [search, Bool.or_eq_true, matchhere_iff, ih]
    constructor
    · rintro (h | ⟨u, v, rfl, h⟩)
      · exact ⟨[], _, rfl, h⟩
      · exact ⟨x :: u, v, rfl, h⟩
    rintro ⟨u, v, huv, h⟩
    cases u with
    | nil => exact .inl (huv ▸ h)
    | cons y u =>
      obtain ⟨rfl, rfl⟩ := List.cons.inj huv
      exact .inr ⟨u, v, rfl, h⟩

theorem match_decides (re text : List UInt8) :
    («match» re text = true) ↔
      if re.head? = some (chr '^') then Begins re.tail text else Occurs re text := by
  cases re with
  | nil => exact search_iff
  | cons c re =>
    simp only [«match», List.head?_cons, Option.some.injEq, List.tail_cons]
    split
    · exact matchhere_iff re text
    · exact search_iff

example : «match» [chr '^', chr '*'] [chr '*'] = true := by decide

example : «match» [chr '$', chr '*', chr 'a', chr '$'] [chr 'b', chr '$',
    chr 'a'] = true := by decide

end Xv6.Grep
