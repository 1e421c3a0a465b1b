import Xv6.Sh.Plumbing

namespace Xv6.Sh

open List (mem_append_left mem_of_getElem?)

variable {W : Type} {cmd : Cmd W}

def Proc.Holds (pr : Proc W) (id : PipeId) : Prop :=
  ∃ fd, pr.fds fd = some (.rend id) ∨ pr.fds fd = some (.wend id)

structure Proc.Wired (cmd : Cmd W) (log : List (Event W)) (pr : Proc W) : Prop where
  good : pr.code.Good cmd pr.node (pr.fds.map PipeId.node) pr.p
  ends : ∀ id, pr.Holds id → log[id.num]? = some (.pipe id.node)
  called : ∀ ρ, ρ <:+ pr.node → ρ ≠ [] → .call ρ ∈ log ∨ ρ = pr.node ∧ .call ρ ∈ pr.code.events
  ended : pr.status ≠ .running → pr.code = .exit

variable {log : List (Event W)} {pr : Proc W}

theorem Proc.Wired.mono (h : pr.Wired cmd log) (evs : List (Event W)) :
    pr.Wired cmd (log ++ evs) := by
  refine ⟨h.good, fun id hid => ?_, fun ρ hρ hne => ?_, h.ended⟩
  · have hlog := h.ends id hid
    rw [List.getElem?_append_left (List.getElem?_eq_some_iff.1 hlog).1]
    exact hlog
  · exact (h.called ρ hρ hne).imp_left (mem_append_left _)

theorem Code.Good.here {code : Code W} {ν : Place} {T : Table W Place} {p : ℕ × ℕ}
    (h : code.Good cmd ν T p) : Here cmd ν T code := by
  cases code with
  | exit => exact h
  | _ => exact h.1

theorem Proc.Wired.goes_on (h : pr.Wired cmd log) (evs : List (Event W)) {k : Code W}
    {t : Table W PipeId} {p : ℕ × ℕ} (hrun : pr.status = .running)
    (hgood : k.Good cmd pr.node (t.map PipeId.node) p)
    (ht : ∀ id, { pr with fds := t }.Holds id →
      pr.Holds id ∨ (log ++ evs)[id.num]? = some (.pipe id.node))
    (hk : .call pr.node ∈ pr.code.events → .call pr.node ∈ k.events) :
    Proc.Wired cmd (log ++ evs) { pr with fds := t, p := p, code := k } := by
  refine ⟨hgood, fun id hid => ?_, fun ρ hρ hne => ?_, fun hne => absurd hrun hne⟩
  · rcases ht id hid with hid | hid
    · exact (h.mono evs).ends id hid
    · exact hid
  · rcases (h.mono evs).called ρ hρ hne with hlog | ⟨rfl, hmem⟩
    · exact .inl hlog
    · exact .inr ⟨rfl, hk hmem⟩

theorem Proc.Wired.above (h : pr.Wired cmd log) (hnot : .call pr.node ∉ pr.code.events)
    {ρ : Place} (hρ : ρ <:+ pr.node) (hne : ρ ≠ []) : .call ρ ∈ log := by
  rcases h.called ρ hρ hne with hlog | ⟨rfl, hmem⟩
  · exact hlog
  · exact absurd hmem hnot

def pending (l : List (Proc W)) : Multiset (Event W) :=
  (l.map fun pr => (pr.code.events : Multiset (Event W))).sum

theorem pending_append (l l' : List (Proc W)) : pending (l ++ l') = pending l + pending l' := by
  rw [pending, List.map_append, List.sum_append]
  rfl

theorem pending_set {l : List (Proc W)} {q : ℕ} (h : l[q]? = some pr) (pr' : Proc W) :
    pending (l.set q pr') + pr.code.events = pending l + pr'.code.events :=
  Lib.sum_map_set (fun pr : Proc W => (pr.code.events : Multiset (Event W))) h pr'

theorem mem_pending {l : List (Proc W)} {ev : Event W} :
    ev ∈ pending l ↔ ∃ pr ∈ l, ev ∈ pr.code.events := by
  induction l with
  | nil => simp [pending]
  | cons pr l ih =>
    have hcons : pending (pr :: l) = pr.code.events + pending l := rfl
    rw [hcons, Multiset.mem_add, Multiset.mem_coe, ih, List.exists_mem_cons_iff]

structure World.Wired (cmd : Cmd W) (S : World W) : Prop where
  procs : ∀ pr ∈ S.procs, pr.Wired cmd S.log
  calls : S.log + pending S.procs = (runcmd [] cmd).events
  ran : ∀ π argv, .exec π argv ∈ S.log → ∀ ρ, ρ <:+ π → ρ ≠ [] → .call ρ ∈ S.log
  older : ∀ (q : ℕ) (pr : Proc W) (a : ℕ), S.procs[q]? = some pr → pr.parent = some a → a < q

namespace World

variable {S S' : World W} {q : ℕ}

theorem start_table : Table.map PipeId.node (fun fd => if fd < 3 then some (.given fd) else none) =
    (⟨.given 0, .given 1, .given 2⟩ : Std W).table := by
  funext fd
  rcases fd with _ | _ | _ | fd
  · rfl
  · rfl
  · rfl
  · simp [Table.map, Std.table, Table.ofList]

theorem start_wired (hcmd : cmd.Plain) : (start cmd).Wired cmd := by
  refine ⟨fun pr hpr => ?_, ?_, ?_, fun q pr a hq ha => ?_⟩
  · cases List.mem_singleton.1 hpr
    refine ⟨?_, ?_, ?_, fun hne => absurd rfl hne⟩
    · rw [start_table]
      exact runcmd_good cmd hcmd [] _ _ .root
    · rintro id ⟨fd, hfd | hfd⟩
      · simp at hfd
      · simp at hfd
    · intro ρ hρ hne
      exact absurd (List.suffix_nil.1 hρ) hne
  · simp [start, pending]
  · intro π argv hmem
    cases hmem
  · cases List.mem_singleton.1 (mem_of_getElem? hq)
    cases ha

section
variable (h : S.Wired cmd) (hq : S.procs[q]? = some pr)
include h hq

theorem Wired.evolve {pr' : Proc W} (kids : List (Proc W)) (evs : List (Event W))
    (hpr : pr'.Wired cmd (S.log ++ evs)) (hpar : pr'.parent = pr.parent)
    (hkids : ∀ c ∈ kids, c.Wired cmd (S.log ++ evs) ∧ c.parent = some q)
    (hevs : (pr.code.events : Multiset (Event W)) = evs + pr'.code.events + pending kids)
    (hran : ∀ π argv, .exec π argv ∈ evs → ∀ ρ, ρ <:+ π → ρ ≠ [] → .call ρ ∈ S.log) :
    Wired cmd ⟨S.procs.set q pr' ++ kids, S.log ++ evs⟩ := by
  have hlt : q < S.procs.length := (List.getElem?_eq_some_iff.1 hq).1
  refine ⟨fun c hc => ?_, ?_, fun π argv hmem ρ hρ hne => ?_, fun i c a hi ha => ?_⟩
  · rcases List.mem_append.1 hc with hc | hc
    · rcases List.mem_or_eq_of_mem_set hc with hc | rfl
      · exact (h.procs c hc).mono evs
      · exact hpr
    · exact (hkids c hc).1
  · have hset := pending_set hq pr'
    have hsum : pending (S.procs.set q pr') + (evs + pending kids) = pending S.procs := by
      refine add_right_cancel (b := (pr'.code.events : Multiset (Event W))) ?_
      rw [← hset, hevs]
      ac_rfl
    rw [pending_append, ← Multiset.coe_add, ← h.calls, ← hsum]
    ac_rfl
  · rcases List.mem_append.1 hmem with hmem | hmem
    · exact mem_append_left _ (h.ran π argv hmem ρ hρ hne)
    · exact mem_append_left _ (hran π argv hmem ρ hρ hne)
  · rw [List.getElem?_append] at hi
    split at hi
    · rw [List.getElem?_set] at hi
      split at hi
      · rename_i hqi
        subst hqi
        cases hi
        exact h.older q pr a hq (hpar ▸ ha)
      · exact h.older i c a hi ha
    · rename_i hge
      have hc := (hkids c (mem_of_getElem? hi)).2
      rw [hc] at ha
      cases ha
      rw [List.length_set] at hge
      omega

theorem Wired.put {pr' : Proc W} (hpr : pr'.Wired cmd (S.log ++ [])) (hpar : pr'.parent = pr.parent)
    (hevs : pr.code.events = pr'.code.events) : (S.put q pr').Wired cmd := by
  have hwired := h.evolve hq [] [] hpr hpar (by simp) (by simp [hevs, pending]) (by simp)
  simpa [World.put] using hwired

theorem Wired.note {pr' : Proc W} {ev : Event W} (hpr : pr'.Wired cmd (S.log ++ [ev]))
    (hpar : pr'.parent = pr.parent) (hevs : pr.code.events = ev :: pr'.code.events)
    (hran : ∀ π argv, ev = .exec π argv → ∀ ρ, ρ <:+ π → ρ ≠ [] → .call ρ ∈ S.log) :
    ((S.put q pr').note ev).Wired cmd := by
  have hwired := h.evolve hq [] [ev] hpr hpar (by simp) (by simp [hevs, pending]) ?_
  · simpa [World.put, World.note] using hwired
  · intro π argv hmem
    exact hran π argv (List.mem_singleton.1 hmem).symm

end

theorem Wired.each (h : S.Wired cmd) {g : ℕ → Proc W → Proc W}
    (hcode : ∀ i pr, (g i pr).code = pr.code)
    (hpr : ∀ i pr, S.procs[i]? = some pr → (g i pr).Wired cmd S.log)
    (hpar : ∀ i pr a, (g i pr).parent = some a → pr.parent = some a) : (S.each g).Wired cmd := by
  have hevents : (S.procs.mapIdx g).map (fun pr => (pr.code.events : Multiset (Event W))) =
      S.procs.map fun pr => (pr.code.events : Multiset (Event W)) := by
    refine List.ext_getElem? fun i => ?_
    simp [Function.comp_def, hcode]
  refine ⟨fun c hc => ?_, ?_, h.ran, fun i c a hi ha => ?_⟩
  · obtain ⟨i, hi, rfl⟩ := List.mem_mapIdx.1 hc
    exact hpr i _ (List.getElem?_eq_getElem hi)
  · have hcalls := h.calls
    unfold pending at hcalls ⊢
    rw [World.each, hevents]
    exact hcalls
  · rw [World.each, List.getElem?_mapIdx] at hi
    obtain ⟨pr, hpr, rfl⟩ := Option.map_eq_some_iff.1 hi
    exact h.older i pr a hpr (hpar i pr a ha)

theorem zombieOf_some {c : ℕ} (h : S.zombieOf q = some c) :
    ∃ pr, S.procs[c]? = some pr ∧ pr.parent = some q ∧ pr.status = .zombie := by
  have hc := List.find?_some h
  cases hpr : S.procs[c]? with
  | none => simp [hpr] at hc
  | some pr => exact ⟨pr, rfl, by simpa [hpr] using hc⟩

theorem Wired.wait (h : S.Wired cmd) (hS : S.wait q = some S') : S'.Wired cmd := by
  unfold World.wait at hS
  cases hz : S.zombieOf q with
  | none =>
    simp only [hz] at hS
    split at hS
    · cases hS
    · cases hS
      exact h
  | some c =>
    simp only [hz, Option.some.injEq] at hS
    subst hS
    obtain ⟨pr, hpr, -, hzombie⟩ := zombieOf_some hz
    refine h.each (fun i pr => ?_) (fun i pr' hi => ?_) (fun i pr a ha => ?_)
    · split <;> rfl
    · have hwired := h.procs pr' (mem_of_getElem? hi)
      split
      · rename_i heq
        rw [heq, hpr] at hi
        cases hi
        have hcode := hwired.ended (by rw [hzombie]; decide)
        exact ⟨hwired.good, hwired.ends, hwired.called, fun _ => hcode⟩
      · exact hwired
    · split at ha
      · exact ha
      · exact ha

theorem Wired.exit (h : S.Wired cmd) (hq : S.procs[q]? = some pr) (hcode : pr.code = .exit) :
    (S.exit q).Wired cmd := by
  refine h.each (fun i pr => ?_) (fun i pr' hi => ?_) (fun i pr a ha => ?_)
  · split
    · rfl
    · split <;> rfl
  · have hwired := h.procs pr' (mem_of_getElem? hi)
    split
    · rename_i heq
      rw [heq, hq] at hi
      cases hi
      refine ⟨?_, ?_, hwired.called, fun _ => hcode⟩
      · rw [hcode]
        exact ⟨nofun, trivial⟩
      · rintro id ⟨fd, hfd | hfd⟩
        · cases hfd
        · cases hfd
    · split
      · exact ⟨hwired.good, hwired.ends, hwired.called, hwired.ended⟩
      · exact hwired
  · split at ha
    · exact ha
    · split at ha
      · cases ha
      · exact ha

theorem Wired.act (h : S.Wired cmd) (hq : S.procs[q]? = some pr) (hrun : pr.status = .running)
    (hS : S.act q pr = some S') : S'.Wired cmd := by
  have hpr := h.procs pr (mem_of_getElem? hq)
  have hgood := hpr.good
  cases hcode : pr.code with
  | close fd k =>
    simp only [World.act, hcode, Option.some.injEq] at hS
    subst hS
    rw [hcode] at hgood
    refine h.put hq (hpr.goes_on [] hrun ?_ ?_ ?_) rfl (by rw [hcode]; rfl)
    · rw [← Table.close_map]
      exact hgood.2
    · rintro id ⟨i, hi⟩
      exact .inl ⟨i, hi.imp Table.of_close Table.of_close⟩
    · rw [hcode]
      exact fun h => h
  | dup fd k =>
    simp only [World.act, hcode, Option.some.injEq] at hS
    subst hS
    rw [hcode] at hgood
    refine h.put hq (hpr.goes_on [] hrun ?_ ?_ ?_) rfl (by rw [hcode]; rfl)
    · rw [← Table.dup_map]
      exact hgood.2
    · rintro id ⟨i, hi | hi⟩
      · obtain ⟨j, hj⟩ := Table.of_dup hi
        exact .inl ⟨j, .inl hj⟩
      · obtain ⟨j, hj⟩ := Table.of_dup hi
        exact .inl ⟨j, .inr hj⟩
    · rw [hcode]
      exact fun h => h
  | «open» file mode k =>
    rw [hcode] at hgood
    obtain ⟨-, fd, T, halloc, hk⟩ := hgood
    have hmap := Table.fdalloc_map PipeId.node pr.fds (.opened file mode)
    rw [show (.opened file mode : File W PipeId).map PipeId.node = .opened file mode from rfl,
      halloc] at hmap
    obtain ⟨⟨fd', t⟩, ht, heq⟩ := Option.map_eq_some_iff.1 hmap.symm
    cases heq
    simp only [World.act, hcode, ht, Option.some.injEq] at hS
    subst hS
    refine h.put hq (hpr.goes_on [] hrun hk ?_ ?_) rfl (by rw [hcode]; rfl)
    · rintro id ⟨i, hi | hi⟩
      · rcases Table.of_fdalloc ht hi with hi | hi
        · cases hi
        · exact .inl ⟨i, .inl hi⟩
      · rcases Table.of_fdalloc ht hi with hi | hi
        · cases hi
        · exact .inl ⟨i, .inr hi⟩
    · rw [hcode]
      exact fun h => h
  | pipe π k =>
    rw [hcode] at hgood
    obtain ⟨-, p', T, hpipe, hk⟩ := hgood
    have hmap := Table.pipe_map PipeId.node pr.fds ⟨S.log.length, π⟩
    rw [hpipe] at hmap
    obtain ⟨⟨p'', t⟩, ht, heq⟩ := Option.map_eq_some_iff.1 hmap.symm
    cases heq
    simp only [World.act, hcode, ht, Option.some.injEq] at hS
    subst hS
    refine h.note hq (hpr.goes_on [.pipe π] hrun hk ?_ ?_) rfl (by rw [hcode]; rfl) ?_
    · rintro id ⟨i, hi | hi⟩
      · rcases Table.of_pipe ht hi with hi | hi | hi
        · cases hi
          exact .inr (by simp)
        · cases hi
        · exact .inl ⟨i, .inl hi⟩
      rcases Table.of_pipe ht hi with hi | hi | hi
      · cases hi
      · cases hi
        exact .inr (by simp)
      · exact .inl ⟨i, .inr hi⟩
    · rw [hcode]
      intro hmem
      simpa [Code.events] using hmem
    · intro ρ argv hev
      cases hev
  | fork π child k =>
    simp only [World.act, hcode, Option.some.injEq] at hS
    subst hS
    rw [hcode] at hgood
    obtain ⟨⟨-, ⟨b, rfl⟩, hcall, hnot⟩, hchild, hk⟩ := hgood
    rw [← hcode] at hnot
    rw [← List.append_nil S.log]
    refine h.evolve hq [_] [] (hpr.goes_on [] hrun hk ?_ ?_) rfl ?_ ?_ ?_
    · exact fun id hid => .inl hid
    · exact fun hmem => absurd hmem hnot
    · intro c hc
      cases List.mem_singleton.1 hc
      refine ⟨⟨hchild, fun id hid => (hpr.mono _).ends id hid, fun ρ hρ hne => ?_,
        fun hne => absurd hrun hne⟩, rfl⟩
      rcases List.suffix_cons_iff.1 hρ with rfl | hρ
      · exact .inr ⟨rfl, hcall⟩
      · exact .inl (mem_append_left _ (hpr.above hnot hρ hne))
    · simp [hcode, pending, Code.events, add_comm]
    · simp
  | call π k =>
    simp only [World.act, hcode, Option.some.injEq] at hS
    subst hS
    rw [hcode] at hgood
    obtain ⟨⟨-, hnext⟩, hk⟩ := hgood
    refine h.note hq ⟨hk, fun id hid => (hpr.mono _).ends id hid, fun ρ hρ hne => .inl ?_,
      fun hne => absurd hrun hne⟩ rfl (by rw [hcode]; rfl) ?_
    · rcases hnext with rfl | ⟨⟨b, rfl⟩, hnot⟩
      · rcases hpr.called ρ hρ hne with hlog | ⟨rfl, -⟩
        · exact mem_append_left _ hlog
        · simp
      · rw [← hcode] at hnot
        rcases List.suffix_cons_iff.1 hρ with rfl | hρ
        · simp
        · exact mem_append_left _ (hpr.above hnot hρ hne)
    · intro ρ argv hev
      cases hev
  | wait π k =>
    simp only [World.act, hcode] at hS
    rw [hcode] at hgood
    refine .wait (h.put hq (hpr.goes_on [] hrun hgood.2 ?_ ?_) rfl (by rw [hcode]; rfl)) hS
    · exact fun id hid => .inl hid
    · rw [hcode]
      exact fun h => h
  | exec π argv k =>
    simp only [World.act, hcode, Option.some.injEq] at hS
    subst hS
    rw [hcode] at hgood
    obtain ⟨⟨-, rfl, hnot, -⟩, hk⟩ := hgood
    refine h.note hq (hpr.goes_on [.exec pr.node argv] hrun hk ?_ ?_) rfl (by rw [hcode]; rfl) ?_
    · exact fun id hid => .inl hid
    · rw [hcode]
      intro hmem
      simpa [Code.events] using hmem
    intro ρ argv' hev ρ' hρ' hne
    cases hev
    refine hpr.above ?_ hρ' hne
    rw [hcode]
    simpa [Code.events] using hnot
  | exit =>
    simp only [World.act, hcode, Option.some.injEq] at hS
    subst hS
    exact h.exit hq hcode

theorem step_some (h : S.step q = some S') :
    ∃ pr, S.procs[q]? = some pr ∧ pr.status = .running ∧ S.act q pr = some S' := by
  unfold World.step at h
  cases hq : S.procs[q]? with
  | none => simp [hq] at h
  | some pr =>
    simp only [hq] at h
    split at h
    · rename_i hrun
      exact ⟨pr, rfl, hrun, h⟩
    · cases h

theorem Wired.step (h : S.Wired cmd) (hS : S.step q = some S') : S'.Wired cmd := by
  obtain ⟨pr, hq, hrun, hact⟩ := step_some hS
  exact h.act hq hrun hact

theorem act_none (h : S.act q pr = none) :
    ∃ π k, pr.code = .wait π k ∧ (S.put q { pr with code := k }).wait q = none := by
  cases hcode : pr.code with
  | close fd k => simp [act, hcode] at h
  | dup fd k => simp [act, hcode] at h
  | «open» file mode k =>
    simp only [act, hcode] at h
    split at h
    · cases h
    · cases h
  | pipe π k =>
    simp only [act, hcode] at h
    split at h
    · cases h
    · cases h
  | fork π child k => simp [act, hcode] at h
  | call π k => simp [act, hcode] at h
  | wait π k => exact ⟨π, k, rfl, by simpa [act, hcode] using h⟩
  | exec π argv k => simp [act, hcode] at h
  | exit => simp [act, hcode] at h

theorem wait_none (h : S.wait q = none) :
    ∃ (c : ℕ) (pr : Proc W), S.procs[c]? = some pr ∧ pr.parent = some q ∧
      pr.status = .running := by
  unfold World.wait at h
  cases hz : S.zombieOf q with
  | some c => simp [hz] at h
  | none =>
    simp only [hz, ite_eq_left_iff, reduceCtorEq, imp_false, Bool.not_eq_true,
      Bool.not_eq_false] at h
    obtain ⟨pr, hpr, hp⟩ := List.any_eq_true.1 h
    obtain ⟨hpar, hgone⟩ := of_decide_eq_true hp
    obtain ⟨c, hlt, hc⟩ := List.mem_iff_getElem.1 hpr
    have hget : S.procs[c]? = some pr := by rw [List.getElem?_eq_getElem hlt, hc]
    have hnot := List.find?_eq_none.1 hz c (List.mem_range.2 hlt)
    refine ⟨c, pr, hget, hpar, ?_⟩
    cases hst : pr.status with
    | running => rfl
    | gone => exact absurd hst hgone
    | zombie => simp [hget, hpar, hst] at hnot

theorem Wired.can_step (h : S.Wired cmd) {n : ℕ} (hn : S.procs.length ≤ q + n)
    (hq : S.procs[q]? = some pr) (hrun : pr.status = .running) : ∃ q S', S.step q = some S' := by
  induction n generalizing q pr with
  | zero =>
    have := (List.getElem?_eq_some_iff.1 hq).1
    omega
  | succ n ih =>
    cases hact : S.act q pr with
    | some S' => exact ⟨q, S', by simp [World.step, hq, hrun, hact]⟩
    | none =>
      obtain ⟨π, k, hcode, hwait⟩ := act_none hact
      obtain ⟨c, pr', hc, hpar, hrun'⟩ := wait_none hwait
      have hne : c ≠ q := by
        rintro rfl
        have hlt : c < S.procs.length := (List.getElem?_eq_some_iff.1 hq).1
        have hget : some { pr with code := k } = some pr' := by
          rw [← hc, World.put, List.getElem?_set_self hlt]
        cases hget
        exact Nat.lt_irrefl c (h.older c pr c hq hpar)
      rw [World.put, List.getElem?_set_ne (.symm hne)] at hc
      have hlt := h.older c pr' q hc hpar
      exact ih (by omega) hc hrun'

end World

def Code.size : Code W → ℕ
  | .close _ k => k.size + 1
  | .dup _ k => k.size + 1
  | .open _ _ k => k.size + 1
  | .pipe _ k => k.size + 1
  | .fork _ child k => child.size + k.size + 2
  | .call _ k => k.size + 1
  | .wait _ k => k.size + 1
  | .exec _ _ k => k.size + 1
  | .exit => 0

def Proc.work (pr : Proc W) : ℕ := if pr.status = .running then pr.code.size + 1 else 0

namespace World

variable {S S' : World W} {q : ℕ}

def work (S : World W) : ℕ := (S.procs.map Proc.work).sum

theorem work_put (hq : S.procs[q]? = some pr) (pr' : Proc W) :
    (S.put q pr').work + pr.work = S.work + pr'.work :=
  Lib.sum_map_set Proc.work hq pr'

theorem work_each {g : ℕ → Proc W → Proc W} {l : List (Proc W)}
    (h : ∀ i, (S.procs[i]?.map (g i)).map Proc.work = l[i]?.map Proc.work) :
    (S.each g).work = (l.map Proc.work).sum := by
  refine congrArg List.sum (List.ext_getElem? fun i => ?_)
  rw [World.each, List.getElem?_map, List.getElem?_mapIdx, List.getElem?_map, h i]

theorem work_wait (h : S.wait q = some S') : S'.work = S.work := by
  unfold World.wait at h
  cases hz : S.zombieOf q with
  | none =>
    simp only [hz] at h
    split at h
    · cases h
    · cases h
      rfl
  | some c =>
    simp only [hz, Option.some.injEq] at h
    subst h
    obtain ⟨pr, hpr, -, hzombie⟩ := zombieOf_some hz
    refine work_each fun i => ?_
    by_cases hi : i = c
    · subst hi
      simp [hpr, Proc.work, hzombie]
    · simp [hi]

theorem work_exit (hq : S.procs[q]? = some pr) : (S.exit q).work + pr.work = S.work := by
  have hput := work_put hq { pr with fds := fun _ => none, status := .zombie }
  have hexit : (S.exit q).work =
      (S.put q { pr with fds := fun _ => none, status := .zombie }).work := by
    refine work_each fun i => ?_
    by_cases hi : i = q
    · subst hi
      rw [hq, World.put, List.getElem?_set_self (List.getElem?_eq_some_iff.1 hq).1]
      simp
    · simp only [World.put, List.getElem?_set_ne (.symm hi), if_neg hi, Option.map_map]
      refine Option.map_congr fun c _ => ?_
      dsimp only [Function.comp]
      split <;> rfl
  rw [hexit, hput]
  simp [Proc.work]

theorem work_lt_of_put (hq : S.procs[q]? = some pr) (hrun : pr.status = .running) {pr' : Proc W}
    (hst : pr'.status = pr.status) (hsize : pr'.code.size < pr.code.size) :
    (S.put q pr').work < S.work := by
  have hput := work_put hq pr'
  simp only [Proc.work, hst, hrun, if_true] at hput
  omega

theorem act_work (hq : S.procs[q]? = some pr) (hrun : pr.status = .running)
    (h : S.act q pr = some S') : S'.work < S.work := by
  have hlt : ∀ {pr' : Proc W}, pr'.status = pr.status → pr'.code.size < pr.code.size →
      (S.put q pr').work < S.work := work_lt_of_put hq hrun
  cases hcode : pr.code with
  | close fd k =>
    simp only [act, hcode, Option.some.injEq] at h
    subst h
    exact hlt rfl (by simp [hcode, Code.size])
  | dup fd k =>
    simp only [act, hcode, Option.some.injEq] at h
    subst h
    exact hlt rfl (by simp [hcode, Code.size])
  | «open» file mode k =>
    simp only [act, hcode] at h
    split at h
    · cases h
      exact hlt rfl (by simp [hcode, Code.size])
    · cases h
      exact hlt rfl (by simp [hcode, Code.size])
  | pipe π k =>
    simp only [act, hcode] at h
    split at h
    · cases h
      exact hlt rfl (by simp [hcode, Code.size])
    · cases h
      exact hlt rfl (by simp [hcode, Code.size])
  | fork π child k =>
    simp only [act, hcode, Option.some.injEq] at h
    subst h
    have hput := work_put hq { pr with code := k }
    simp only [World.work, World.put, Proc.work, hrun, hcode, Code.size, if_true, List.map_append,
      List.sum_append, List.map_cons, List.map_nil, List.sum_cons, List.sum_nil] at hput ⊢
    omega
  | call π k =>
    simp only [act, hcode, Option.some.injEq] at h
    subst h
    exact hlt rfl (by simp [hcode, Code.size])
  | wait π k =>
    simp only [act, hcode] at h
    rw [work_wait h]
    exact hlt rfl (by simp [hcode, Code.size])
  | exec π argv k =>
    simp only [act, hcode, Option.some.injEq] at h
    subst h
    exact hlt rfl (by simp [hcode, Code.size])
  | exit =>
    simp only [act, hcode, Option.some.injEq] at h
    subst h
    have hexit := work_exit hq
    simp only [Proc.work, hrun, if_true] at hexit
    omega

theorem length_le_work {tr : List ℕ} (h : Lib.exec World.step S tr = some S') :
    tr.length + S'.work ≤ S.work := by
  refine Lib.exec_history (fun tr S' => tr.length + S'.work ≤ S.work) (by simp) ?_ h
  intro tr t l u _ ih hl
  obtain ⟨pr, hq, hrun, hact⟩ := step_some hl
  have := act_work hq hrun hact
  simp only [List.length_append, List.length_singleton]
  omega

end World

theorem Cmd.plain_map {V : Type} (g : W → V) (c : Cmd W) : (c.map g).Plain ↔ c.Plain := by
  induction c with
  | exec argv => rfl
  | redir c file mode fd ih => exact and_congr_right fun _ => ih
  | pipe l r ihl ihr => exact and_congr ihl ihr
  | list l r ihl ihr => exact and_congr ihl ihr
  | back c ih => exact ih

theorem Cmd.Plain.redirs {c : Cmd W} (hc : c.Plain) {rs : List (Redir W)}
    (hrs : ∀ r ∈ rs, r.fd < 2) : (c.redirs rs).Plain := by
  induction rs generalizing c with
  | nil => exact hc
  | cons r rs ih =>
    refine ih ⟨hrs r List.mem_cons_self, hc⟩ ?_
    exact fun r' hr' => hrs r' (List.mem_cons_of_mem _ hr')

theorem Cmd.Plain.backs {c : Cmd W} (hc : c.Plain) (k : ℕ) : (c.backs k).Plain := by
  induction k generalizing c with
  | zero => exact hc
  | succ k ih => exact ih (c := c.back) hc

theorem Tok.redir_fd {t : Tok} {mode : UInt32} {fd : ℕ} (h : t.redir = some (mode, fd)) : fd < 2 := by
  cases t with
  | lt => cases h; decide
  | gt => cases h; decide
  | gtgt => cases h; decide
  | _ => cases h

theorem Redirs.fd_lt {ts : List Tok} {rs : List (Redir (List UInt8))} (h : Redirs ts rs) :
    ∀ r ∈ rs, r.fd < 2 := by
  induction h with
  | nil => simp
  | cons t w mode fd ts rs ht h ih =>
    intro r hr
    rcases List.mem_cons.1 hr with rfl | hr
    · exact Tok.redir_fd ht
    · exact ih r hr

theorem Args.fd_lt {ts : List Tok} {ws : List (List UInt8)} {rs : List (Redir (List UInt8))}
    (h : Args ts ws rs) : ∀ r ∈ rs, r.fd < 2 := by
  induction h with
  | nil => simp
  | cons w ts us ws rs rs' h h' ih =>
    intro r hr
    rcases List.mem_append.1 hr with hr | hr
    · exact h.fd_lt r hr
    · exact ih r hr

mutual

theorem Line.plain {ts : List Tok} {c : Cmd (List UInt8)} : Line ts c → c.Plain
  | .last _ _ k h => h.plain.backs k
  | .more _ _ _ _ k h h' => ⟨h.plain.backs k, h'.plain⟩

theorem Pipe.plain {ts : List Tok} {c : Cmd (List UInt8)} : Pipe ts c → c.Plain
  | .last _ _ h => h.plain
  | .more _ _ _ _ h h' => ⟨h.plain, h'.plain⟩

theorem Command.plain {ts : List Tok} {c : Cmd (List UInt8)} : Command ts c → c.Plain
  | .block _ _ _ _ h h' => h.plain.redirs h'.fd_lt
  | .exec _ _ _ _ _ h h' _ => by
      refine Cmd.Plain.redirs (c := .exec _) trivial fun r hr => ?_
      rcases List.mem_append.1 hr with hr | hr
      · exact h.fd_lt r hr
      · exact h'.fd_lt r hr

end

theorem parsecmd_plain {mem : List UInt8} {a : Cmd Word × List UInt8} (h : parsecmd mem = .ok a) :
    a.1.Plain := by
  obtain ⟨s', hline, -, -⟩ := parsecmd_ok.1 h
  obtain ⟨ts, -, hder⟩ := ((sound (line mem) _).line hline (List.suffix_refl _)).derives
  exact (Cmd.plain_map _ _).1 hder.plain

theorem At.events {c : Cmd W} {π : Place} {e : Std W} (h : At cmd π c e) :
    ∀ ev ∈ (runcmd π c).events, ev ∈ (runcmd [] cmd).events := by
  induction h with
  | root => exact fun ev hev => hev
  | redir h ih => exact fun ev hev => ih ev (List.mem_cons_of_mem _ hev)
  | pipeLeft h ih =>
    refine fun ev hev => ih ev ?_
    simp [runcmd, Code.events, hev]
  | pipeRight h ih =>
    refine fun ev hev => ih ev ?_
    simp [runcmd, Code.events, hev]
  | listLeft h ih =>
    refine fun ev hev => ih ev ?_
    simp [runcmd, Code.events, hev]
  | listRight h ih =>
    refine fun ev hev => ih ev ?_
    simp [runcmd, Code.events, hev]
  | back h ih =>
    refine fun ev hev => ih ev ?_
    simp [runcmd, Code.events, hev]

structure Plumbed (cmd : Cmd W) (S : World W) : Prop where
  leaf : ∀ pr ∈ S.procs, ∀ π argv k, pr.code = .exec π argv k →
    ∃ e, At cmd π (.exec argv) e ∧ e.fd2 = .given 2 ∧ pr.fds.map PipeId.node = e.table
  fresh : ∀ pr ∈ S.procs, ∀ pr' ∈ S.procs, ∀ id id', pr.Holds id → pr'.Holds id' →
    id.node = id'.node → id = id'
  waits : ∀ pr ∈ S.procs, ∀ π k, pr.code = .wait π k → ∀ id, pr.Holds id → id.node ≠ π
  right : ∀ π argv, (.exec π argv ∈ S.log ∨ ∃ pr ∈ S.procs, ∃ k, pr.code = .exec π argv k) →
    ∀ pr ∈ S.procs, ∀ fd id, (true :: id.node) <:+ π → pr.fds fd = some (.wend id) →
      (false :: id.node) <:+ pr.node ∨ pr.node = id.node ∧ pr.code.Busy
  once : S.log.Nodup
  goes_on : (∃ pr ∈ S.procs, pr.status = .running) → ∃ q S', S.step q = some S'
  all : (∀ pr ∈ S.procs, pr.status ≠ .running) → ∀ π argv e, At cmd π (.exec argv) e →
    argv ≠ [] → .exec π argv ∈ S.log

namespace World

variable {S : World W}

theorem Wired.once (h : S.Wired cmd) : (S.log + pending S.procs).Nodup := by
  rw [h.calls]
  exact Multiset.coe_nodup.2 (runcmd_nodup cmd [])

theorem Wired.plumbed (h : S.Wired cmd) : Plumbed cmd S := by
  have hnodup : S.log.Nodup := Multiset.coe_nodup.1 (Multiset.nodup_add.1 h.once).1
  refine ⟨?_, ?_, ?_, ?_, hnodup, ?_, ?_⟩
  · intro pr hpr π argv k hcode
    have hhere := (h.procs pr hpr).good.here.next
    rw [hcode] at hhere
    obtain ⟨-, -, e, he, htable⟩ := hhere
    exact ⟨e, he, he.fd2, htable⟩
  · intro pr hpr pr' hpr' id id' hid hid' hnode
    have h1 := (h.procs pr hpr).ends id hid
    have h2 := (h.procs pr' hpr').ends id' hid'
    have hlt := (List.getElem?_eq_some_iff.1 h1).1
    have hnum : id.num = id'.num :=
      (List.getElem?_inj hlt hnodup).1 (by rw [h1, h2, hnode])
    cases id
    cases id'
    exact congrArg₂ PipeId.mk hnum hnode
  · intro pr hpr π k hcode id hid hnode
    have hhere := (h.procs pr hpr).good.here.next
    rw [hcode] at hhere
    obtain ⟨fd, hfd | hfd⟩ := hid
    · exact (hhere fd).1 (by simp [Table.map, hfd, File.map, hnode])
    · exact (hhere fd).2 (by simp [Table.map, hfd, File.map, hnode])
  · intro π argv hran pr hpr fd id hright hfd
    have hcalled : .call (true :: id.node) ∈ S.log := by
      rcases hran with hlog | ⟨pr', hpr', k, hcode⟩
      · exact h.ran π argv hlog _ hright (List.cons_ne_nil _ _)
      have hhere := (h.procs pr' hpr').good.here.next
      rw [hcode] at hhere
      obtain ⟨rfl, hnot, -⟩ := hhere
      refine (h.procs pr' hpr').above ?_ hright (List.cons_ne_nil _ _)
      rw [hcode]
      simpa [Code.events] using hnot
    have hheld := (h.procs pr hpr).good.here.held fd (.wend id.node)
      (by simp [Table.map, hfd, File.map])
    rcases hheld with hleft | hnode | ⟨hnode, hmem⟩
    · exact .inl hleft
    · exact .inr hnode
    · rw [hnode] at hmem
      exact absurd (mem_pending.2 ⟨pr, hpr, hmem⟩)
        (Multiset.disjoint_left.1 (Multiset.nodup_add.1 h.once).2.2 hcalled)
  · rintro ⟨pr, hpr, hrun⟩
    obtain ⟨q, hq⟩ := List.mem_iff_getElem?.1 hpr
    exact h.can_step (Nat.le_add_left _ q) hq hrun
  · intro hend π argv e he hne
    have hev : .exec π argv ∈ (runcmd [] cmd).events := by
      refine he.events _ ?_
      simp [runcmd, hne, Code.events]
    have hmem : .exec π argv ∈ (S.log + pending S.procs : Multiset (Event W)) := by
      rw [h.calls]
      exact hev
    rcases Multiset.mem_add.1 hmem with hlog | hpend
    · exact hlog
    · obtain ⟨pr, hpr, hpend⟩ := mem_pending.1 hpend
      rw [(h.procs pr hpr).ended (hend pr hpr)] at hpend
      cases hpend

end World

theorem runcmd_plumbing :
    (∀ mem a, parsecmd mem = .ok a → (tree mem a).Plain) ∧
    ∀ cmd : Cmd W, cmd.Plain → ∀ tr S, Lib.exec World.step (start cmd) tr = some S →
      Plumbed cmd S ∧ tr.length ≤ (runcmd [] cmd).size + 1 := by
  refine ⟨fun mem a h => (Cmd.plain_map _ _).2 (parsecmd_plain h), fun cmd hcmd tr S h => ⟨?_, ?_⟩⟩
  · refine World.Wired.plumbed (Lib.exec_invariant (World.Wired cmd) ?_ ?_ h)
    · exact World.start_wired hcmd
    · exact fun t q u ht hu => ht.step hu
  · have hwork := World.length_le_work h
    have hstart : (start cmd).work = (runcmd [] cmd).size + 1 := rfl
    omega

theorem runcmd_plumbing_pipe :
    ∃ S, Lib.exec World.step (start (.pipe (.exec [1]) (.exec [2])))
        [0, 0, 0, 2, 2, 2, 2, 2, 0, 0] = some S ∧
      S.procs[2]?.map Proc.code = some (.exec [true] [2] .exit) ∧
      Plumbed (.pipe (.exec [1]) (.exec [2])) S := by
  obtain ⟨S, hS, hcode⟩ := Lib.exec_exists World.step (start (.pipe (.exec [1]) (.exec [2])))
    [0, 0, 0, 2, 2, 2, 2, 2, 0, 0]
    (fun S => S.procs[2]?.map Proc.code = some (.exec [true] [2] .exit)) (by decide)
  refine ⟨S, hS, hcode, ?_⟩
  exact (runcmd_plumbing.2 (.pipe (.exec [1]) (.exec [2])) ⟨trivial, trivial⟩ _ S hS).1

theorem runcmd_plumbing_early :
    ∃ S, Lib.exec World.step (start (.pipe (.exec [1]) (.exec [2]))) [0, 0, 0, 2, 2, 2, 2, 2] =
        some S ∧
      (∃ pr, S.procs[2]? = some pr ∧ pr.code = .exec [true] [2] .exit ∧
        pr.fds 0 = some (.rend ⟨0, []⟩)) ∧
      ∃ pr, S.procs[0]? = some pr ∧ pr.status = .running ∧ pr.node = [] ∧
        pr.fds 4 = some (.wend ⟨0, []⟩) :=
  ⟨_, rfl, ⟨_, rfl, rfl, rfl⟩, _, rfl, rfl, rfl, rfl⟩

end Xv6.Sh
