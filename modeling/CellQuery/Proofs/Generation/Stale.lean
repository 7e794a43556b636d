import CellQuery.Generation.Desk

/-!
# Stale tickets

A generation never moves back, as long as no number comes after the last one (`Issues`). So no
ticket is ahead of its generation (`UpTo`), and to differ from the generation is to be behind it: a
ticket that is stale remains so (`isStale_mono`).

On a desk this holds of every generation with all of its tickets at once (`Desk.Sound`), whatever
steps are taken (`Desk.Run.spec`): a step moves one generation on and issues a ticket of it, or it
leaves all generations alone (`Desk.step?_cases`).
-/

namespace CellQuery

/-! ### One generation -/

/-- There is a number for the generation that comes next. -/
def Generation.HasNext (g : Generation) : Prop :=
  g.current.toNat + 1 < UInt64.size

instance (g : Generation) : Decidable g.HasNext :=
  inferInstanceAs (Decidable (g.current.toNat + 1 < UInt64.size))

/-- The ticket is for the generation `g` or for an earlier one. -/
def Ticket.UpTo (t : Ticket) (g : Generation) : Prop :=
  t.bound = true → t.version ≤ g.current

/-- A ticket and the generation after it was issued, which was `g` before. -/
structure Generation.Issues (g : Generation) (issued : Ticket × Generation) : Prop where
  le : g.current ≤ issued.2.current
  upTo : issued.1.UpTo issued.2

section Ticket

variable {t : Ticket} {g g' : Generation}

theorem Ticket.UpTo.mono (h : t.UpTo g) (hle : g.current ≤ g'.current) : t.UpTo g' := by
  intro hbound
  exact UInt64.le_trans (h hbound) hle

theorem Ticket.isStale_iff_lt (h : t.UpTo g) :
    t.isStale g = true ↔ t.bound = true ∧ t.version < g.current := by
  rw [isStale, Bool.and_eq_true, bne_iff_ne]
  constructor
  · rintro ⟨hbound, hne⟩
    exact ⟨hbound, UInt64.lt_of_le_of_ne (h hbound) hne⟩
  · rintro ⟨hbound, hlt⟩
    exact ⟨hbound, UInt64.ne_of_lt hlt⟩

theorem Ticket.isStale_mono (h : t.UpTo g) (hle : g.current ≤ g'.current)
    (hstale : t.isStale g = true) : t.isStale g' = true := by
  obtain ⟨hbound, hlt⟩ := (isStale_iff_lt h).mp hstale
  have hlt' : t.version < g'.current := UInt64.lt_of_lt_of_le hlt hle
  exact (isStale_iff_lt (h.mono hle)).mpr ⟨hbound, hlt'⟩

theorem Ticket.isStale_of_not_bound (h : t.bound = false) (g : Generation) :
    t.isStale g = false := by
  rw [isStale, h, Bool.false_and]

end Ticket

namespace Generation

variable {g : Generation}

theorem current_lt_bump (h : g.HasNext) : g.current < g.bump.2.current := by
  have hone : (1 : UInt64).toNat = 1 := rfl
  show g.current < g.current + 1
  rw [UInt64.lt_iff_toNat_lt, UInt64.toNat_add, hone, Nat.mod_eq_of_lt h]
  exact Nat.lt_succ_self _

theorem current_ticketFor (g : Generation) (v : UInt64) :
    (g.ticketFor v).2.current = if g.current ≤ v then v else g.current := rfl

theorem issues_bump (h : g.HasNext) : g.Issues g.bump :=
  ⟨UInt64.le_of_lt (current_lt_bump h), fun _ => UInt64.le_refl _⟩

theorem issues_ticketFor (g : Generation) (v : UInt64) : g.Issues (g.ticketFor v) := by
  have hcurrent := g.current_ticketFor v
  split at hcurrent
  · next hle =>
    refine ⟨?_, fun _ => ?_⟩
    · rwa [hcurrent]
    · rw [hcurrent]
      exact UInt64.le_refl v
  · next hlt =>
    refine ⟨?_, fun _ => ?_⟩
    · rw [hcurrent]
      exact UInt64.le_refl _
    · rw [hcurrent]
      exact UInt64.le_of_lt (UInt64.not_le.mp hlt)

theorem issues_free (g : Generation) : g.Issues (.free, g) :=
  ⟨UInt64.le_refl _, nofun⟩

theorem isStale_bump (g : Generation) : g.bump.1.isStale g.bump.2 = false := by
  simp [bump, Ticket.isStale]

/-- Beginning a generation makes every ticket stale that was issued before. -/
theorem isStale_of_upTo (h : g.HasNext) {t : Ticket} (ht : t.UpTo g) (hbound : t.bound = true) :
    t.isStale g.bump.2 = true := by
  have hlt := current_lt_bump h
  refine (Ticket.isStale_iff_lt (ht.mono (UInt64.le_of_lt hlt))).mpr ⟨hbound, ?_⟩
  exact UInt64.lt_of_le_of_lt (ht hbound) hlt

/-- A number behind the latest one leaves the generation as it is, and its ticket is stale. -/
theorem ticketFor_of_lt {v : UInt64} (h : v < g.current) :
    g.ticketFor v = (⟨v, true⟩, g) ∧ Ticket.isStale ⟨v, true⟩ g = true := by
  have hcurrent : (g.ticketFor v).2.current = g.current := by
    rw [current_ticketFor, if_neg (UInt64.not_le.mpr h)]
  refine ⟨Prod.ext rfl ?_, ?_⟩
  · exact congrArg Generation.mk hcurrent
  · rw [Ticket.isStale, Bool.true_and, bne_iff_ne]
    exact UInt64.ne_of_lt h

end Generation

/-! ### Steps on a desk -/

namespace Desk

variable {d d' : Desk} {s : Step} {i : Nat} {begin : Generation → Ticket × Generation}

/-- The generation that a step moves on. -/
def moved? (d : Desk) : Step → Option Nat
  | .bump h => d.handles[h]?
  | .ticketFor h _ => d.handles[h]?
  | _ => none

/-- The step does not begin a generation after the last number. -/
def Fits (d : Desk) : Step → Prop
  | .bump h => ∀ i ∈ d.handles[h]?, (d.generation i).HasNext
  | _ => True

instance (d : Desk) (s : Step) : Decidable (d.Fits s) :=
  match s with
  | .bump h => inferInstanceAs (Decidable (∀ i ∈ d.handles[h]?, (d.generation i).HasNext))
  | .fresh | .share _ | .ticketFor _ _ | .free | .copy _ => inferInstanceAs (Decidable True)

/-- Every handle has a generation, and no ticket is ahead of its own. -/
structure Sound (d : Desk) : Prop where
  handles : ∀ i ∈ d.handles, i < d.generations.length
  tickets : ∀ t ∈ d.tickets, t.2.UpTo (d.generation t.1)

/-- No generation has moved. Some tickets may be new, but none of them in its generation. -/
structure Quiet (d d' : Desk) : Prop where
  generation : d'.generation = d.generation
  handles : (∀ i ∈ d.handles, i < d.generations.length) →
    ∀ i ∈ d'.handles, i < d'.generations.length
  tickets : ∃ more, d'.tickets = d.tickets ++ more ∧ ∀ t ∈ more, t ∈ d.tickets ∨ t.2 = .free

/-- What stays: no generation has moved back, and the tickets keep their numbers. -/
structure Extends (d d' : Desk) : Prop where
  le : ∀ i, (d.generation i).current ≤ (d'.generation i).current
  tickets : d.tickets <+: d'.tickets

theorem Extends.refl (d : Desk) : d.Extends d :=
  ⟨fun _ => UInt64.le_refl _, List.prefix_rfl⟩

theorem Extends.trans {d₁ : Desk} (h : d.Extends d₁) (h' : d₁.Extends d') : d.Extends d' :=
  ⟨fun i => UInt64.le_trans (h.le i) (h'.le i), h.tickets.trans h'.tickets⟩

theorem generation_issue (hi : i < d.generations.length) (j : Nat) :
    (d.issue i begin).generation j =
      if j = i then (begin (d.generation i)).2 else d.generation j := by
  simp only [generation, Desk.issue, List.getElem?_set]
  by_cases hj : j = i
  · subst hj
    simp [hi]
  · simp [hj, Ne.symm hj]

/-- A further generation is what reading beyond the last one gave before. -/
theorem generation_fresh (d : Desk) (handles : List Nat) (tickets : List (Nat × Ticket)) :
    generation ⟨d.generations ++ [({} : Generation)], handles, tickets⟩ = d.generation := by
  funext j
  simp only [generation, List.getElem?_append]
  split
  · rfl
  · next hj =>
    have hnone : d.generations[j]? = none := List.getElem?_eq_none (Nat.le_of_not_lt hj)
    rw [hnone]
    cases j - d.generations.length <;> rfl

/-- A step issues a ticket of the generation that it moves, or nothing moves. -/
theorem step?_cases (h : d.step? s = some d') :
    (∃ i begin, d.moved? s = some i ∧ i ∈ d.handles ∧ d' = d.issue i begin ∧
      (d.Fits s → (d.generation i).Issues (begin (d.generation i)))) ∨
    d.moved? s = none ∧ d.Quiet d' := by
  cases s with
  | fresh =>
    obtain rfl := Option.some.inj h
    refine .inr ⟨rfl, d.generation_fresh _ _, fun hall i hi => ?_, [], (List.append_nil _).symm,
      nofun⟩
    rw [List.length_append, List.length_singleton]
    rcases List.mem_append.mp hi with hi | hi
    · exact Nat.lt_succ_of_lt (hall i hi)
    · obtain rfl := List.mem_singleton.mp hi
      exact Nat.lt_succ_self _
  | share handle =>
    obtain ⟨i, hi, rfl⟩ := Option.map_eq_some_iff.mp h
    refine .inr ⟨rfl, rfl, fun hall j hj => ?_, [], (List.append_nil _).symm, nofun⟩
    rcases List.mem_append.mp hj with hj | hj
    · exact hall j hj
    · obtain rfl := List.mem_singleton.mp hj
      exact hall j (List.mem_of_getElem? hi)
  | bump handle =>
    obtain ⟨i, hi, rfl⟩ := Option.map_eq_some_iff.mp h
    exact .inl ⟨i, Generation.bump, hi, List.mem_of_getElem? hi, rfl,
      fun hfits => Generation.issues_bump (hfits i hi)⟩
  | ticketFor handle v =>
    obtain ⟨i, hi, rfl⟩ := Option.map_eq_some_iff.mp h
    exact .inl ⟨i, (·.ticketFor v), hi, List.mem_of_getElem? hi, rfl,
      fun _ => Generation.issues_ticketFor _ v⟩
  | free =>
    obtain rfl := Option.some.inj h
    refine .inr ⟨rfl, rfl, id, [(0, .free)], rfl, fun t ht => ?_⟩
    exact .inr (congrArg Prod.snd (List.mem_singleton.mp ht))
  | copy n =>
    obtain ⟨t, ht, rfl⟩ := Option.map_eq_some_iff.mp h
    refine .inr ⟨rfl, rfl, id, [t], rfl, fun u hu => ?_⟩
    obtain rfl := List.mem_singleton.mp hu
    exact .inl (List.mem_of_getElem? ht)

theorem Sound.issue (hd : d.Sound) (hi : i ∈ d.handles)
    (h : (d.generation i).Issues (begin (d.generation i))) :
    (d.issue i begin).Sound ∧ d.Extends (d.issue i begin) := by
  have hlt := hd.handles i hi
  have hle : ∀ j, (d.generation j).current ≤ ((d.issue i begin).generation j).current := by
    intro j
    rw [generation_issue hlt]
    split
    · next hj =>
      rw [hj]
      exact h.le
    · exact UInt64.le_refl _
  refine ⟨⟨?_, ?_⟩, hle, List.prefix_append _ _⟩
  · intro j hj
    rw [Desk.issue, List.length_set]
    exact hd.handles j hj
  · intro t ht
    -- earlier tickets are behind the new number, and the new one is at it
    rcases List.mem_append.mp ht with ht | ht
    · exact (hd.tickets t ht).mono (hle t.1)
    · obtain rfl := List.mem_singleton.mp ht
      rw [generation_issue hlt, if_pos rfl]
      exact h.upTo

theorem Quiet.spec (h : d.Quiet d') (hd : d.Sound) : d'.Sound ∧ d.Extends d' := by
  obtain ⟨more, htickets, hmore⟩ := h.tickets
  refine ⟨⟨h.handles hd.handles, fun t ht => ?_⟩, fun i => ?_, ?_⟩
  · rw [h.generation]
    rw [htickets] at ht
    -- what comes in is a copy or belongs to no generation
    have hold : t ∈ d.tickets ∨ t.2 = .free := by
      rcases List.mem_append.mp ht with ht | ht
      · exact .inl ht
      · exact hmore t ht
    rcases hold with ht | hfree
    · exact hd.tickets t ht
    · rw [hfree]
      nofun
  · rw [h.generation]
    exact UInt64.le_refl _
  · rw [htickets]
    exact List.prefix_append _ _

theorem Sound.step (hd : d.Sound) (hfits : d.Fits s) (h : d.step? s = some d') :
    d'.Sound ∧ d.Extends d' := by
  rcases step?_cases h with ⟨i, begin, -, hi, rfl, hissues⟩ | ⟨-, hquiet⟩
  · exact hd.issue hi (hissues hfits)
  · exact hquiet.spec hd

theorem isStale_issue (hi : i < d.generations.length) (t : Nat × Ticket) :
    (d.issue i begin).isStale t =
      if t.1 = i then t.2.isStale (begin (d.generation i)).2 else d.isStale t := by
  rw [isStale, generation_issue hi, isStale]
  split <;> rfl

/-- A step on one generation does not show in the tickets of another, nor in those of none. -/
theorem isStale_step (hd : d.Sound) (h : d.step? s = some d') {t : Nat × Ticket}
    (ht : t.2.bound = false ∨ d.moved? s ≠ some t.1) : d'.isStale t = d.isStale t := by
  rcases ht with hfree | hother
  · rw [isStale, isStale, Ticket.isStale_of_not_bound hfree, Ticket.isStale_of_not_bound hfree]
  · rcases step?_cases h with ⟨i, begin, hmoved, hi, rfl, -⟩ | ⟨-, hquiet⟩
    · rw [isStale_issue (hd.handles i hi), if_neg]
      rintro rfl
      exact hother hmoved
    · rw [isStale, isStale, hquiet.generation]

/-! ### Runs -/

/-- `d'` is the desk `d` after some steps, none of which goes beyond the last number. -/
inductive Run : Desk → List Step → Desk → Prop
  | nil (d : Desk) : Run d [] d
  | cons {d d₁ d' : Desk} {s : Step} {steps : List Step} :
      d.Fits s → d.step? s = some d₁ → Run d₁ steps d' → Run d (s :: steps) d'

theorem sound_initial : initial.Sound :=
  ⟨by decide, nofun⟩

theorem Run.spec {steps : List Step} (h : d.Run steps d') (hd : d.Sound) :
    d'.Sound ∧ d.Extends d' := by
  induction h with
  | nil d => exact ⟨hd, .refl d⟩
  | cons hfits hstep _ ih =>
    obtain ⟨hsound, hextends⟩ := hd.step hfits hstep
    obtain ⟨hsound', hextends'⟩ := ih hsound
    exact ⟨hsound', hextends.trans hextends'⟩

/-- **Tickets become stale and stay stale.** After any steps no generation has moved back, no ticket
is ahead of its own, and the stale tickets are the bound ones behind it, which remain stale in all
that follows. Beginning a generation gives a live ticket and makes stale all others of that
generation, whatever handle they were issued by; an older number changes no generation and gives a
stale ticket. No step shows in the tickets of a generation that it does not move, or in the free
ones. -/
theorem run_stale {before later : List Step} (h : initial.Run before d) (hlater : d.Run later d') :
    (∀ i, (d.generation i).current ≤ (d'.generation i).current) ∧
    d.tickets <+: d'.tickets ∧
    (∀ t ∈ d.tickets, t.2.bound = true → t.2.version ≤ (d.generation t.1).current) ∧
    (∀ t ∈ d.tickets,
      d.isStale t = true ↔ t.2.bound = true ∧ t.2.version < (d.generation t.1).current) ∧
    (∀ t ∈ d.tickets, d.isStale t = true → d'.isStale t = true) ∧
    (∀ handle i, d.handles[handle]? = some i → (d.generation i).HasNext →
      ∃ t d₁, d.step? (.bump handle) = some d₁ ∧ d₁.tickets = d.tickets ++ [(i, t)] ∧
        t.bound = true ∧ d₁.isStale (i, t) = false ∧
        ∀ u ∈ d.tickets, u.1 = i → u.2.bound = true → d₁.isStale u = true) ∧
    (∀ handle i v, d.handles[handle]? = some i → v < (d.generation i).current →
      ∃ d₁, d.step? (.ticketFor handle v) = some d₁ ∧ d₁.generation = d.generation ∧
        d₁.tickets = d.tickets ++ [(i, ⟨v, true⟩)] ∧ d₁.isStale (i, ⟨v, true⟩) = true) ∧
    (∀ s d₁, d.step? s = some d₁ → ∀ t ∈ d.tickets,
      t.2.bound = false ∨ d.moved? s ≠ some t.1 → d₁.isStale t = d.isStale t) := by
  obtain ⟨hd, -⟩ := h.spec sound_initial
  obtain ⟨-, hextends⟩ := hlater.spec hd
  refine ⟨hextends.le, hextends.tickets, hd.tickets, fun t ht => ?_, fun t ht => ?_,
    fun handle i hi hnext => ?_, fun handle i v hi hv => ?_, fun s d₁ hstep t _ => ?_⟩
  · exact Ticket.isStale_iff_lt (hd.tickets t ht)
  · exact Ticket.isStale_mono (hd.tickets t ht) (hextends.le t.1)
  · have hlt := hd.handles i (List.mem_of_getElem? hi)
    refine ⟨(d.generation i).bump.1, d.issue i Generation.bump, ?_, rfl, rfl, ?_, ?_⟩
    · rw [step?, hi, Option.map_some]
    · rw [isStale_issue hlt, if_pos rfl]
      exact Generation.isStale_bump _
    · intro u hu hui hbound
      have hupTo := hd.tickets u hu
      rw [hui] at hupTo
      rw [isStale_issue hlt, if_pos hui]
      exact Generation.isStale_of_upTo hnext hupTo hbound
  · have hlt := hd.handles i (List.mem_of_getElem? hi)
    obtain ⟨hticket, hstale⟩ := Generation.ticketFor_of_lt hv
    refine ⟨d.issue i (·.ticketFor v), ?_, ?_, rfl, ?_⟩
    · rw [step?, hi, Option.map_some]
    · funext j
      rw [generation_issue hlt, hticket]
      split
      · next hj => rw [hj]
      · rfl
    · rw [isStale_issue hlt, if_pos rfl, hticket]
      exact hstale
  · exact isStale_step hd hstep

/-- Two handles on one generation, a third on another. An older number from outside is stale at once
and stays so, and the copied ticket of the latest one becomes stale by way of the other handle. -/
theorem run_stale_shared :
    let before := [Step.ticketFor 0 10, .share 0, .fresh, .bump 2, .ticketFor 1 3, .free, .copy 0]
    let later := [Step.bump 1, .bump 2]
    let older : Nat × Ticket := (0, ⟨3, true⟩)
    let latest : Nat × Ticket := (0, ⟨10, true⟩)
    let d : Desk := ⟨[⟨10⟩, ⟨1⟩], [0, 0, 1],
      [latest, (1, ⟨1, true⟩), older, (0, .free), latest]⟩
    let d' : Desk := ⟨[⟨11⟩, ⟨2⟩], d.handles, d.tickets ++ [(0, ⟨11, true⟩), (1, ⟨2, true⟩)]⟩
    initial.Run before d ∧ d.Run later d' ∧ d.isStale older = true ∧ d'.isStale older = true ∧
      d.isStale latest = false ∧
      ∃ t d₁, d.step? (.bump 1) = some d₁ ∧ d₁.isStale (0, t) = false ∧
        d₁.isStale latest = true := by
  intro before later older latest d d'
  have hbefore : initial.Run before d :=
    .cons trivial rfl (.cons trivial rfl (.cons trivial rfl (.cons (by decide) rfl
      (.cons trivial rfl (.cons trivial rfl (.cons trivial rfl (.nil d)))))))
  have hlater : d.Run later d' := .cons (by decide) rfl (.cons (by decide) rfl (.nil d'))
  obtain ⟨-, -, -, -, hstays, hbump, -, -⟩ := run_stale hbefore hlater
  have holder : d.isStale older = true := by decide
  have hlatest : d.isStale latest = false := by decide
  obtain ⟨t, d₁, hstep, -, -, hlive, hstale⟩ := hbump 1 0 rfl (by decide)
  exact ⟨hbefore, hlater, holder, hstays older (by decide) holder, hlatest, t, d₁, hstep, hlive,
    hstale latest (by decide) rfl rfl⟩

end Desk

end CellQuery
