import Mathlib.Data.List.Basic
import Mathlib.Data.Set.List

/-!
# Loops over a list

A Python `for` loop that may raise is `List.foldlM` in `Except`.
`bind_eq_ok` takes a successful computation apart, and `foldlM_inv` carries
an invariant through a loop that ends well.

`group` is the dictionary of lists that a loop with
`d.setdefault(key(x), []).append(x)` builds, with its keys in the order of
insertion.
-/

namespace PMFuzz.Fold

variable {α β γ ε σ : Type}

theorem bind_eq_ok {x : Except ε α} {f : α → Except ε β} {r : β} :
    (x >>= f) = .ok r ↔ ∃ a, x = .ok a ∧ f a = .ok r := by
  cases x with
  | error e => exact ⟨fun h => (by cases h), fun ⟨a, h, _⟩ => (by cases h)⟩
  | ok a => exact ⟨fun h => ⟨a, rfl, h⟩, fun ⟨b, h, hf⟩ => (by cases h; exact hf)⟩

theorem toOption_eq_some {x : Except ε α} {a : α} : x.toOption = some a ↔ x = .ok a := by
  cases x with
  | error e => exact ⟨fun h => (by cases h), fun h => (by cases h)⟩
  | ok b => exact ⟨fun h => (by cases h; rfl), fun h => (by cases h; rfl)⟩

theorem toOption_map_eq_some {x : Except ε α} {f : α → β} {b : β} :
    x.toOption.map f = some b ↔ ∃ a, x = .ok a ∧ f a = b := by
  rw [Option.map_eq_some_iff]
  exact exists_congr fun a => and_congr_left fun _ => toOption_eq_some

theorem foldlM_cons_eq_ok {f : σ → α → Except ε σ} {a : α} {l : List α} {s t : σ} :
    (a :: l).foldlM f s = .ok t ↔ ∃ u, f s a = .ok u ∧ l.foldlM f u = .ok t := by
  rw [List.foldlM_cons, bind_eq_ok]

theorem foldlM_nil_eq_ok {f : σ → α → Except ε σ} {s t : σ} :
    ([] : List α).foldlM f s = .ok t ↔ s = t :=
  ⟨fun h => (by cases h; rfl), fun h => (by cases h; rfl)⟩

/-- What one round of the loop preserves, the loop preserves. -/
theorem foldlM_inv {f : σ → α → Except ε σ} {P : σ → Prop} {l : List α}
    (hstep : ∀ a ∈ l, ∀ s t, P s → f s a = .ok t → P t) {s t : σ} (hs : P s)
    (h : l.foldlM f s = .ok t) : P t := by
  induction l generalizing s with
  | nil => cases foldlM_nil_eq_ok.mp h; exact hs
  | cons a l ih =>
    obtain ⟨u, hu, h⟩ := foldlM_cons_eq_ok.mp h
    exact ih (fun b hb => hstep b (List.mem_cons_of_mem _ hb)) (hstep a List.mem_cons_self s u hs hu) h

/-- A loop that ends well has run its rounds. -/
theorem foldlM_mem {f : σ → α → Except ε σ} {l : List α} {s t : σ} (h : l.foldlM f s = .ok t) :
    ∀ a ∈ l, ∃ u v, f u a = .ok v := by
  induction l generalizing s with
  | nil => exact fun a ha => absurd ha List.not_mem_nil
  | cons b l ih =>
    obtain ⟨u, hu, h⟩ := foldlM_cons_eq_ok.mp h
    intro a ha
    rcases List.mem_cons.mp ha with rfl | ha
    · exact ⟨s, u, hu⟩
    · exact ih h a ha

/-- The loop does not raise if no round does. -/
theorem foldlM_total {f : σ → α → Except ε σ} {P : σ → Prop} {l : List α}
    (hstep : ∀ a ∈ l, ∀ s, P s → ∃ t, f s a = .ok t ∧ P t) {s : σ} (hs : P s) :
    ∃ t, l.foldlM f s = .ok t ∧ P t := by
  induction l generalizing s with
  | nil => exact ⟨s, rfl, hs⟩
  | cons a l ih =>
    obtain ⟨u, hu, hP⟩ := hstep a List.mem_cons_self s hs
    obtain ⟨t, ht, hPt⟩ := ih (fun b hb => hstep b (List.mem_cons_of_mem _ hb)) hP
    exact ⟨t, foldlM_cons_eq_ok.mpr ⟨u, hu, ht⟩, hPt⟩

/-- A loop that does in one component what another one does. -/
theorem foldlM_map {τ : Type} {f : σ → α → Except ε σ} {g : τ → α → Except ε τ} {e : σ → τ} {l : List α}
    (hround : ∀ a ∈ l, ∀ s s', f s a = .ok s' → g (e s) a = .ok (e s')) {s t : σ} (h : l.foldlM f s = .ok t) :
    l.foldlM g (e s) = .ok (e t) := by
  induction l generalizing s with
  | nil =>
    cases foldlM_nil_eq_ok.mp h
    rfl
  | cons a l ih =>
    obtain ⟨u, hu, h⟩ := foldlM_cons_eq_ok.mp h
    refine foldlM_cons_eq_ok.mpr ⟨e u, hround a List.mem_cons_self s u hu, ?_⟩
    exact ih (fun b hb => hround b (List.mem_cons_of_mem a hb)) h

/-- Rounds that change nothing. -/
theorem foldlM_fixed {f : σ → α → Except ε σ} {l : List α} {s : σ} (h : ∀ a ∈ l, f s a = .ok s) :
    l.foldlM f s = .ok s := by
  induction l with
  | nil => rfl
  | cons a l ih =>
    refine foldlM_cons_eq_ok.mpr ⟨s, h a List.mem_cons_self, ih fun b hb => ?_⟩
    exact h b (List.mem_cons_of_mem a hb)

/-- What a monadic filter keeps. -/
theorem mem_filterM {f : α → Except ε Bool} {l r : List α} (h : l.filterM f = .ok r) {x : α} :
    x ∈ r ↔ x ∈ l ∧ f x = .ok true := by
  have hloop : ∀ (l acc r : List α), l.filterAuxM f acc = .ok r →
      (x ∈ r ↔ x ∈ acc ∨ x ∈ l ∧ f x = .ok true) := by
    intro l
    induction l with
    | nil =>
      intro acc r h
      cases h
      simp
    | cons a l ih =>
      intro acc r h
      obtain ⟨b, hb, h⟩ := bind_eq_ok.mp h
      rw [ih _ _ h, List.mem_cons]
      cases b with
      | true =>
        by_cases hx : x = a
        · simp [hx, hb]
        · simp [hx]
      | false =>
        by_cases hx : x = a
        · simp [hx, hb]
        · simp [hx]
  obtain ⟨r', hr', h⟩ := bind_eq_ok.mp h
  cases h
  rw [List.mem_reverse, hloop l [] r' hr']
  simp

/-- It does not raise if its test never does. -/
theorem exists_filterM {f : α → Except ε Bool} {l : List α} (h : ∀ a ∈ l, ∃ b, f a = .ok b) :
    ∃ r, l.filterM f = .ok r := by
  have hloop : ∀ (l acc : List α), (∀ a ∈ l, ∃ b, f a = .ok b) → ∃ r, l.filterAuxM f acc = .ok r := by
    intro l
    induction l with
    | nil => exact fun acc _ => ⟨acc, rfl⟩
    | cons a l ih =>
      intro acc h
      obtain ⟨b, hb⟩ := h a List.mem_cons_self
      obtain ⟨r, hr⟩ := ih (bif b then a :: acc else acc) fun x hx => h x (List.mem_cons_of_mem a hx)
      exact ⟨r, bind_eq_ok.mpr ⟨b, hb, hr⟩⟩
  obtain ⟨r, hr⟩ := hloop l [] h
  exact ⟨r.reverse, bind_eq_ok.mpr ⟨r, hr, rfl⟩⟩

/-- A loop that collects a value for each element. -/
theorem mapM_eq_ok {f : α → Except ε β} {l : List α} {r : List β} :
    l.mapM f = .ok r ↔ List.Forall₂ (fun a b => f a = .ok b) l r := by
  induction l generalizing r with
  | nil =>
    rw [List.mapM_nil]
    exact ⟨fun h => (by cases h; exact .nil), fun h => (by cases h; rfl)⟩
  | cons a l ih =>
    rw [List.mapM_cons, bind_eq_ok]
    constructor
    · rintro ⟨b, hb, h⟩
      obtain ⟨bs, hbs, h⟩ := bind_eq_ok.mp h
      cases h
      exact .cons hb (ih.mp hbs)
    · intro h
      cases h with
      | @cons _ b _ bs hb hbs => exact ⟨b, hb, bind_eq_ok.mpr ⟨bs, ih.mpr hbs, rfl⟩⟩

/-- A loop in a loop. -/
theorem mapM_flatMap {f : α → Except ε β} {g : γ → List α} {l : List γ} :
    (l.flatMap g).mapM f = (l.mapM fun c => (g c).mapM f).map List.flatten := by
  induction l with
  | nil => rfl
  | cons c l ih =>
    rw [List.flatMap_cons, List.mapM_append, ih, List.mapM_cons]
    cases (g c).mapM f with
    | error e => rfl
    | ok bs => cases l.mapM fun c => (g c).mapM f <;> rfl

/-- A relation that each element is in. -/
theorem exists_forall₂ {R : α → β → Prop} {l : List α} : (∃ r, List.Forall₂ R l r) ↔ ∀ a ∈ l, ∃ b, R a b := by
  induction l with
  | nil => exact iff_of_true ⟨[], .nil⟩ fun a ha => absurd ha List.not_mem_nil
  | cons a l ih =>
    rw [List.forall_mem_cons, ← ih]
    constructor
    · rintro ⟨r, h⟩
      cases h with
      | cons hb h => exact ⟨⟨_, hb⟩, _, h⟩
    · rintro ⟨⟨b, hb⟩, r, h⟩
      exact ⟨b :: r, .cons hb h⟩

/-- Each element has its partner. -/
theorem mem_of_forall₂ {R : α → β → Prop} {l : List α} {r : List β} (h : List.Forall₂ R l r) :
    (∀ a ∈ l, ∃ b ∈ r, R a b) ∧ ∀ b ∈ r, ∃ a ∈ l, R a b := by
  induction h with
  | nil => exact ⟨fun a ha => absurd ha List.not_mem_nil, fun b hb => absurd hb List.not_mem_nil⟩
  | @cons a b l r hab _ ih =>
    constructor
    · refine List.forall_mem_cons.mpr ⟨⟨b, List.mem_cons_self, hab⟩, fun c hc => ?_⟩
      obtain ⟨d, hd, hcd⟩ := ih.1 c hc
      exact ⟨d, List.mem_cons_of_mem b hd, hcd⟩
    · refine List.forall_mem_cons.mpr ⟨⟨a, List.mem_cons_self, hab⟩, fun d hd => ?_⟩
      obtain ⟨c, hc, hcd⟩ := ih.2 d hd
      exact ⟨c, List.mem_cons_of_mem a hc, hcd⟩

/-- A list of values of `f`. -/
theorem exists_map {f : α → β} {l : List β} (h : ∀ b ∈ l, ∃ a, b = f a) : ∃ as : List α, l = as.map f := by
  have hrange : l ∈ Set.range (List.map f) := by
    rw [Set.range_list_map]
    intro b hb
    obtain ⟨a, rfl⟩ := h b hb
    exact ⟨a, rfl⟩
  obtain ⟨as, has⟩ := hrange
  exact ⟨as, has.symm⟩

/-! ## Dictionaries of lists -/

variable [DecidableEq β]

/-- `d.setdefault(k, []).append(v)`. -/
def insertGroup : List (β × List α) → β → α → List (β × List α)
  | [], k, v => [(k, [v])]
  | (k', vs) :: d, k, v => if k' = k then (k', vs ++ [v]) :: d else (k', vs) :: insertGroup d k v

/-- The dictionary after the loop. -/
def group (key : α → β) (l : List α) : List (β × List α) :=
  l.foldl (fun d a => insertGroup d (key a) a) []

/-- What the loop keeps: the entry of a key holds the elements with that
key, in order. -/
structure Groups (key : α → β) (l : List α) (d : List (β × List α)) : Prop where
  nodup : (d.map Prod.fst).Nodup
  eq_filter : ∀ p ∈ d, p.2 = l.filter fun a => key a = p.1
  ne_nil : ∀ p ∈ d, p.2 ≠ []
  covers : ∀ a ∈ l, key a ∈ d.map Prod.fst

theorem insertGroup_map (f : α → γ) (d : List (β × List α)) (k : β) (v : α) :
    insertGroup (d.map fun p => (p.1, p.2.map f)) k (f v) =
      (insertGroup d k v).map fun p => (p.1, p.2.map f) := by
  induction d with
  | nil => rfl
  | cons p d ih =>
    obtain ⟨k', vs⟩ := p
    rw [List.map_cons, insertGroup, insertGroup]
    split
    · simp
    · rw [ih, List.map_cons]

theorem mem_keys_insertGroup {d : List (β × List α)} {k k' : β} {v : α} :
    k' ∈ (insertGroup d k v).map Prod.fst ↔ k' = k ∨ k' ∈ d.map Prod.fst := by
  induction d with
  | nil => simp [insertGroup]
  | cons p d ih =>
    obtain ⟨k₀, vs⟩ := p
    unfold insertGroup
    split
    · rename_i h
      subst h
      simp
    · simp only [List.map_cons, List.mem_cons, ih]
      tauto

theorem nodup_insertGroup {d : List (β × List α)} {k : β} {v : α} (h : (d.map Prod.fst).Nodup) :
    ((insertGroup d k v).map Prod.fst).Nodup := by
  induction d with
  | nil => simp [insertGroup]
  | cons p d ih =>
    obtain ⟨k₀, vs⟩ := p
    rw [List.map_cons, List.nodup_cons] at h
    unfold insertGroup
    split
    · exact List.nodup_cons.mpr h
    · rename_i hne
      rw [List.map_cons, List.nodup_cons, mem_keys_insertGroup]
      exact ⟨fun hk => hk.elim hne h.1, ih h.2⟩

/-- An entry afterwards: the one of `k` has `v` added, the others are as
before. -/
theorem mem_insertGroup {d : List (β × List α)} {k : β} {v : α} (h : (d.map Prod.fst).Nodup)
    {p : β × List α} :
    p ∈ insertGroup d k v ↔
      (p ∈ d ∧ p.1 ≠ k) ∨ (∃ vs, (k, vs) ∈ d ∧ p = (k, vs ++ [v])) ∨
        (k ∉ d.map Prod.fst ∧ p = (k, [v])) := by
  induction d with
  | nil => simp [insertGroup]
  | cons q d ih =>
    obtain ⟨k₀, vs⟩ := q
    rw [List.map_cons, List.nodup_cons] at h
    unfold insertGroup
    split
    · rename_i heq
      subst heq
      have hd : ∀ q ∈ d, q.1 ≠ k₀ := fun q hq hk => h.1 (List.mem_map.mpr ⟨q, hq, hk⟩)
      constructor
      · rintro (_ | ⟨_, hp⟩)
        · exact .inr (.inl ⟨vs, List.mem_cons_self, rfl⟩)
        · exact .inl ⟨List.mem_cons_of_mem _ hp, hd p hp⟩
      · rintro (⟨hp, hk⟩ | ⟨ws, hws, rfl⟩ | ⟨hk, -⟩)
        · rcases List.mem_cons.mp hp with rfl | hp
          · exact absurd rfl hk
          · exact List.mem_cons_of_mem _ hp
        · rcases List.mem_cons.mp hws with heq | hws
          · cases heq; exact List.mem_cons_self
          · exact absurd rfl (hd _ hws)
        · exact absurd List.mem_cons_self hk
    · rename_i hne
      rw [List.mem_cons, ih h.2]
      constructor
      · rintro (rfl | ⟨hp, hk⟩ | ⟨ws, hws, rfl⟩ | ⟨hk, rfl⟩)
        · exact .inl ⟨List.mem_cons_self, hne⟩
        · exact .inl ⟨List.mem_cons_of_mem _ hp, hk⟩
        · exact .inr (.inl ⟨ws, List.mem_cons_of_mem _ hws, rfl⟩)
        · refine .inr (.inr ⟨?_, rfl⟩)
          rw [List.map_cons, List.mem_cons]
          exact fun hk' => hk'.elim (fun h => hne h.symm) hk
      · rintro (⟨hp, hk⟩ | ⟨ws, hws, rfl⟩ | ⟨hk, rfl⟩)
        · rcases List.mem_cons.mp hp with rfl | hp
          · exact .inl rfl
          · exact .inr (.inl ⟨hp, hk⟩)
        · rcases List.mem_cons.mp hws with heq | hws
          · cases heq; exact absurd rfl hne
          · exact .inr (.inr (.inl ⟨ws, hws, rfl⟩))
        · exact .inr (.inr (.inr ⟨fun h => hk (List.mem_cons_of_mem _ h), rfl⟩))

theorem Groups.insert {key : α → β} {l : List α} {d : List (β × List α)} (h : Groups key l d) (a : α) :
    Groups key (l ++ [a]) (insertGroup d (key a) a) where
  nodup := nodup_insertGroup h.nodup
  eq_filter p hp := by
    rw [List.filter_append]
    rcases (mem_insertGroup h.nodup).mp hp with ⟨hp, hk⟩ | ⟨vs, hvs, rfl⟩ | ⟨hk, rfl⟩
    · have hne : key a ≠ p.1 := fun h => hk h.symm
      rw [h.eq_filter p hp]
      simp [hne]
    · have := h.eq_filter _ hvs
      simp only at this
      rw [this]
      simp
    · have hnone : l.filter (fun b => decide (key b = key a)) = [] := by
        rw [List.filter_eq_nil_iff]
        intro b hb heq
        exact hk (of_decide_eq_true heq ▸ h.covers b hb)
      rw [hnone]
      simp
  ne_nil p hp := by
    rcases (mem_insertGroup h.nodup).mp hp with ⟨hp, -⟩ | ⟨vs, -, rfl⟩ | ⟨-, rfl⟩
    · exact h.ne_nil p hp
    · simp
    · simp
  covers b hb := by
    rw [mem_keys_insertGroup]
    rcases List.mem_append.mp hb with hb | hb
    · exact .inr (h.covers b hb)
    · exact .inl (by rw [List.mem_singleton.mp hb])

theorem group_groups (key : α → β) (l : List α) : Groups key l (group key l) := by
  have hgen : ∀ l' l₀ d, Groups key l₀ d →
      Groups key (l₀ ++ l') (l'.foldl (fun d a => insertGroup d (key a) a) d) := by
    intro l'
    induction l' with
    | nil => intro l₀ d h; simpa using h
    | cons a l' ih =>
      intro l₀ d h
      have := ih (l₀ ++ [a]) _ (h.insert a)
      simpa using this
  have hnil : Groups key ([] : List α) [] :=
    ⟨List.nodup_nil, fun _ h => absurd h List.not_mem_nil, fun _ h => absurd h List.not_mem_nil,
      fun _ h => absurd h List.not_mem_nil⟩
  simpa [group] using hgen l [] [] hnil

/-- What comes after the first element of a filtered list. -/
theorem mem_tail_filter {p : α → Bool} {l : List α} (hl : l.Nodup) {a : α} :
    a ∈ (l.filter p).tail ↔ p a = true ∧ ∃ pre post, l = pre ++ a :: post ∧ ∃ b ∈ pre, p b = true := by
  have hsplit : ∀ pre post, l = pre ++ a :: post → p a = true →
      (a ∈ (l.filter p).tail ↔ ∃ b ∈ pre, p b = true) := by
    rintro pre post rfl ha
    obtain ⟨hpost, -⟩ := List.nodup_cons.mp (List.nodup_append.mp hl).2.1
    rw [List.filter_append, List.filter_cons_of_pos ha]
    cases hpre : pre.filter p with
    | nil =>
      refine iff_of_false (fun h => hpost (List.mem_of_mem_filter h)) ?_
      rintro ⟨b, hb, hpb⟩
      exact absurd (hpre ▸ List.mem_filter.mpr ⟨hb, hpb⟩) List.not_mem_nil
    | cons b bs =>
      refine iff_of_true ?_ ⟨b, List.mem_filter.mp (hpre ▸ List.mem_cons_self)⟩
      exact List.mem_append_right bs List.mem_cons_self
  constructor
  · intro h
    obtain ⟨hal, ha⟩ := List.mem_filter.mp (List.mem_of_mem_tail h)
    obtain ⟨pre, post, hl⟩ := List.append_of_mem hal
    exact ⟨ha, pre, post, hl, (hsplit pre post hl ha).mp h⟩
  · rintro ⟨ha, pre, post, hl, hb⟩
    exact (hsplit pre post hl ha).mpr hb

/-- The elements that are not the first of their groups. -/
theorem mem_tail_group {key : α → β} {l : List α} (hl : l.Nodup) {a : α} :
    a ∈ (group key l).flatMap (fun entry => entry.2.tail) ↔
      ∃ pre post, l = pre ++ a :: post ∧ ∃ b ∈ pre, key b = key a := by
  have hg := group_groups key l
  rw [List.mem_flatMap]
  constructor
  · rintro ⟨e, he, ha⟩
    rw [hg.eq_filter e he, mem_tail_filter hl] at ha
    obtain ⟨hkey, pre, post, hl, b, hb, hkey'⟩ := ha
    exact ⟨pre, post, hl, b, hb, (of_decide_eq_true hkey').trans (of_decide_eq_true hkey).symm⟩
  · rintro ⟨pre, post, rfl, b, hb, hkey⟩
    obtain ⟨e, he, hkey'⟩ := List.mem_map.mp (hg.covers a (by simp))
    refine ⟨e, he, ?_⟩
    rw [hg.eq_filter e he, mem_tail_filter hl]
    exact ⟨decide_eq_true hkey'.symm, pre, post, rfl, b, hb, decide_eq_true (hkey.trans hkey'.symm)⟩

/-! ## What comes again -/

/-- The elements with a key that was seen before them. -/
def repeats (key : α → β) : List β → List α → List α
  | _, [] => []
  | seen, a :: l =>
    if key a ∈ seen then a :: repeats key seen l else repeats key (seen ++ [key a]) l

theorem repeats_subset {key : α → β} {seen : List β} {l : List α} : repeats key seen l ⊆ l := by
  induction l generalizing seen with
  | nil => exact List.nil_subset _
  | cons a l ih =>
    rw [repeats]
    split
    · exact List.cons_subset_cons a ih
    · exact List.subset_cons_of_subset a ih

theorem mem_repeats_of_seen {key : α → β} {seen : List β} {l : List α} {a : α} (ha : a ∈ l)
    (h : key a ∈ seen) : a ∈ repeats key seen l := by
  induction l generalizing seen with
  | nil => exact absurd ha List.not_mem_nil
  | cons b l ih =>
    rw [repeats]
    rcases List.mem_cons.mp ha with rfl | ha
    · rw [if_pos h]
      exact List.mem_cons_self
    · split
      · exact List.mem_cons_of_mem b (ih ha h)
      · exact ih ha (List.mem_append_left _ h)

/-- Of the elements with a key not seen before one is the first. -/
theorem existsUnique_first {key : α → β} {seen : List β} {l : List α} (hnodup : l.Nodup) {a : α}
    (ha : a ∈ l) (h : key a ∉ seen) : ∃! b, b ∈ l ∧ key b = key a ∧ b ∉ repeats key seen l := by
  induction l generalizing seen with
  | nil => exact absurd ha List.not_mem_nil
  | cons c l ih =>
    obtain ⟨hc, hnodup⟩ := List.nodup_cons.mp hnodup
    rw [repeats]
    by_cases hkey : key c = key a
    · rw [if_neg (hkey ▸ h)]
      refine ⟨c, ⟨List.mem_cons_self, hkey, fun hr => hc (repeats_subset hr)⟩, ?_⟩
      rintro b ⟨hb, hba, hnot⟩
      rcases List.mem_cons.mp hb with rfl | hb
      · rfl
      · refine absurd (mem_repeats_of_seen hb ?_) hnot
        rw [hba, hkey]
        exact List.mem_append_right _ (List.mem_singleton.mpr rfl)
    · have hal : a ∈ l := (List.mem_cons.mp ha).resolve_left fun hac => hkey (congrArg key hac.symm)
      have hne : ∀ b, key b = key a → b ≠ c := fun b hb hbc => hkey (hbc ▸ hb)
      -- the element at the head has another key
      have hskip : ∀ r r' : List α, (∀ b, b ≠ c → (b ∈ r ↔ b ∈ r')) →
          (∃! b, b ∈ l ∧ key b = key a ∧ b ∉ r') → ∃! b, b ∈ c :: l ∧ key b = key a ∧ b ∉ r := by
        rintro r r' hr ⟨b, ⟨hb, hba, hnot⟩, huniq⟩
        refine ⟨b, ⟨List.mem_cons_of_mem c hb, hba, fun h => hnot ((hr b (hne b hba)).mp h)⟩, ?_⟩
        rintro b' ⟨hb', hba', hnot'⟩
        exact huniq b' ⟨(List.mem_cons.mp hb').resolve_left (hne b' hba'), hba', fun h =>
          hnot' ((hr b' (hne b' hba')).mpr h)⟩
      split
      · exact hskip _ _ (fun b hb => by rw [List.mem_cons, or_iff_right hb]) (ih hnodup hal h)
      · refine hskip _ _ (fun _ _ => Iff.rfl) (ih hnodup hal ?_)
        rw [List.mem_append, List.mem_singleton, not_or]
        exact ⟨h, fun hac => hkey hac.symm⟩

end PMFuzz.Fold
