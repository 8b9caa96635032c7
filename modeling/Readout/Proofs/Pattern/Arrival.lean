import Mathlib.Data.List.Forall2
import Mathlib.Data.List.Perm.Subperm
import Readout.Proofs.Pattern.Floating

/-!
# The order of arrival

A word goes to the first free pattern that it fits, even where a later word will fit no other one.
So words that do for all patterns in one order may not do in another. The order does not matter just
if, wherever a word fits two patterns, all words of the earlier one fit the later one too
(`completes_perm_iff`).
-/
namespace Readout

namespace Pattern

/-- The word fits the pattern, wherever it stands. -/
def fit (p : Pattern) (w : UInt32) : Bool := fits p.symbols w.toNat

theorem Floating.accepts_eq_fit {p : Pattern} (h : p.Floating) (w : UInt32) (i : Int) :
    p.accepts w i = p.fit w := by
  have hp : p.wordIndex < 0 := h
  simp [Pattern.accepts_eq, fit, hp]

theorem fits_weight (xs : List Symbol) : fits xs (weight (· = .one) xs) = true := by
  induction xs with
  | nil => rfl
  | cons x xs ih =>
    rw [fits, weight_cons_mod, weight_cons_div, ih, Bool.and_true]
    cases x <;> rfl

theorem fit_value (p : Pattern) : p.fit p.value = true := by
  rw [fit, value, toNat_maskOf (Nat.le_of_eq p.length_eq), fits_weight]

/-- The pattern says something of the lowest bit only. -/
def lowest (s : Symbol) : Pattern := ofSymbols [s] (Nat.le_of_ble_eq_true rfl) (-1)

/-- Each pattern has a word of its own. -/
abbrev Suited (ps : List Pattern) (us : List UInt32) : Prop :=
  List.Forall₂ (fun p w => p.fit w = true) ps us

/-- If some word fits both patterns, all words that fit the first one fit the second one. -/
def Nested (p q : Pattern) : Prop :=
  (∃ w, p.fit w = true ∧ q.fit w = true) → ∀ w, p.fit w = true → q.fit w = true

end Pattern

namespace Hand

variable {hand done rest : Hand} {ps : List Pattern} {us ws : List UInt32} {w : UInt32}

/-- A word goes to the first pattern that holds none and fits it. -/
def give (w : UInt32) : Hand → Hand
  | [] => []
  | (p, none) :: rest => if p.fit w then (p, some w) :: rest else (p, none) :: give w rest
  | (p, some v) :: rest => (p, some v) :: give w rest

def deal (hand : Hand) (ws : List UInt32) : Hand := ws.foldl (fun hand w => hand.give w) hand

def Filled (hand : Hand) : Prop := ∀ x ∈ hand, x.2.isSome = true

/-- Patterns hold words that fit them. -/
def Fitting (hand : Hand) : Prop := ∀ x ∈ hand, ∀ w, x.2 = some w → x.1.fit w = true

def words (hand : Hand) : List UInt32 := hand.filterMap Prod.snd

theorem place_eq_give (h : ∀ x ∈ hand, x.1.Floating) (w : UInt32) (i : Nat) :
    hand.place w i = hand.give w := by
  induction hand with
  | nil => rfl
  | cons x rest ih =>
    obtain ⟨hx, hrest⟩ := List.forall_mem_cons.1 h
    obtain ⟨p, held⟩ := x
    have haccepts := hx.accepts_eq_fit w i
    cases held with
    | some v => rw [place_cons_next rfl, give, ih hrest]
    | none =>
      rw [give]
      split
      · next hfit => exact place_cons_self (by simpa using haccepts.trans hfit) rest
      · next hfit =>
        rw [place_cons_next, ih hrest]
        simpa [haccepts] using hfit

theorem map_fst_give (w : UInt32) (hand : Hand) :
    (hand.give w).map Prod.fst = hand.map Prod.fst := by
  fun_induction give w hand <;> simp_all

theorem map_fst_deal (hand : Hand) (ws : List UInt32) :
    (hand.deal ws).map Prod.fst = hand.map Prod.fst := by
  induction ws generalizing hand with
  | nil => rfl
  | cons w ws ih => exact (ih _).trans (map_fst_give w hand)

theorem Fitting.give (h : hand.Fitting) (w : UInt32) : (hand.give w).Fitting := by
  fun_induction Hand.give w hand with
  | case1 => exact h
  | case2 p rest hfit =>
    refine List.forall_mem_cons.2 ⟨fun v hv => ?_, (List.forall_mem_cons.1 h).2⟩
    exact Option.some.inj hv ▸ hfit
  | case3 p rest hfit ih =>
    exact List.forall_mem_cons.2 ⟨nofun, ih (List.forall_mem_cons.1 h).2⟩
  | case4 p v rest ih =>
    obtain ⟨hv, hrest⟩ := List.forall_mem_cons.1 h
    exact List.forall_mem_cons.2 ⟨hv, ih hrest⟩

theorem Fitting.deal (h : hand.Fitting) (ws : List UInt32) : (hand.deal ws).Fitting := by
  induction ws generalizing hand with
  | nil => exact h
  | cons w ws ih => exact ih (h.give w)

theorem fitting_empty (ps : List Pattern) : (empty ps).Fitting := by
  simp [Fitting, empty]

theorem map_fst_empty (ps : List Pattern) : (empty ps).map Prod.fst = ps := by
  simp [empty, Function.comp_def]

theorem words_empty (ps : List Pattern) : (empty ps).words = [] := by
  simp [words, empty]

/-- A word is taken by the first part of a hand, or passed on to the rest. -/
theorem give_append (w : UInt32) (hand rest : Hand) :
    (hand ++ rest).give w = hand.give w ++ rest ∧ (hand.give w).words.Perm (w :: hand.words) ∨
      (hand ++ rest).give w = hand ++ rest.give w ∧ hand.give w = hand := by
  fun_induction give w hand with
  | case1 => exact .inr ⟨rfl, rfl⟩
  | case2 p tail hfit => exact .inl ⟨by simp [give, hfit], by simp [words]⟩
  | case3 p tail hfit ih =>
    have hgive : ∀ hand : Hand, give w ((p, none) :: hand) = (p, none) :: hand.give w :=
      fun hand => by rw [give, if_neg hfit]
    rcases ih with ⟨htaken, hwords⟩ | ⟨hpassed, hsame⟩
    · exact .inl ⟨by rw [List.cons_append, hgive, htaken]; rfl, hwords⟩
    · exact .inr ⟨by rw [List.cons_append, hgive, hpassed]; rfl, by rw [hsame]⟩
  | case4 p v tail ih =>
    rcases ih with ⟨htaken, hwords⟩ | ⟨hpassed, hsame⟩
    · refine .inl ⟨by rw [List.cons_append, give, htaken]; rfl, ?_⟩
      exact (hwords.cons v).trans (.swap w v _)
    · exact .inr ⟨by rw [List.cons_append, give, hpassed]; rfl, by rw [hsame]⟩

theorem give_of_filled (h : hand.Filled) (w : UInt32) : hand.give w = hand := by
  fun_induction give w hand with
  | case1 => rfl
  | case2 p rest hfit => exact absurd (List.forall_mem_cons.1 h).1 Bool.false_ne_true
  | case3 p rest hfit ih => exact absurd (List.forall_mem_cons.1 h).1 Bool.false_ne_true
  | case4 p v rest ih => rw [ih (List.forall_mem_cons.1 h).2]

theorem give_append_of_filled (h : done.Filled) (w : UInt32) (rest : Hand) :
    (done ++ rest).give w = done ++ rest.give w := by
  rcases give_append w done rest with ⟨-, hwords⟩ | ⟨hpassed, -⟩
  · rw [give_of_filled h] at hwords
    simpa using hwords.length_eq
  · exact hpassed

theorem deal_append_of_filled (h : done.Filled) (rest : Hand) (ws : List UInt32) :
    (done ++ rest).deal ws = done ++ rest.deal ws := by
  induction ws generalizing rest with
  | nil => rfl
  | cons w ws ih => exact (congrArg (deal · ws) (give_append_of_filled h w rest)).trans (ih _)

theorem deal_append (hand : Hand) (us ws : List UInt32) :
    hand.deal (us ++ ws) = (hand.deal us).deal ws := List.foldl_append

theorem Filled.deal (h : hand.Filled) (ws : List UInt32) : (hand.deal ws).Filled := by
  have hdone := deal_append_of_filled h [] ws
  have hnone : Hand.deal [] ws = [] := List.map_eq_nil_iff.1 (map_fst_deal [] ws)
  rw [List.append_nil, hnone, List.append_nil] at hdone
  rwa [hdone]

/-- No word is held twice. -/
theorem subperm_words_deal (hand : Hand) (ws : List UInt32) :
    (hand.deal ws).words.Subperm (ws ++ hand.words) := by
  induction ws generalizing hand with
  | nil => exact .refl _
  | cons w ws ih =>
    have hgive : (hand.give w).words.Subperm (w :: hand.words) := by
      rcases give_append w hand [] with ⟨-, hwords⟩ | ⟨-, hsame⟩
      · exact hwords.subperm
      · rw [hsame]
        exact (List.sublist_cons_self w hand.words).subperm
    have hmiddle : (ws ++ w :: hand.words).Perm (w :: ws ++ hand.words) := List.perm_middle
    exact (ih _).trans (((List.subperm_append_left ws).2 hgive).trans hmiddle.subperm)

theorem Filled.forall₂ (h : hand.Filled) (hfit : hand.Fitting) :
    Pattern.Suited (hand.map Prod.fst) hand.words := by
  induction hand with
  | nil => exact .nil
  | cons x rest ih =>
    obtain ⟨hx, hrest⟩ := List.forall_mem_cons.1 h
    obtain ⟨hfitx, hfitrest⟩ := List.forall_mem_cons.1 hfit
    obtain ⟨w, hw⟩ := Option.isSome_iff_exists.1 hx
    have hwords : words (x :: rest) = w :: words rest := List.filterMap_cons_some hw
    rw [List.map_cons, hwords]
    exact .cons (hfitx w hw) (ih hrest hfitrest)

/-- Words that come in the order of the patterns that they fit are taken one by one. -/
theorem exists_deal_append (h : Pattern.Suited ps us) :
    ∃ held : Hand, held.Filled ∧ ∀ qs ws,
      (empty (ps ++ qs)).deal (us ++ ws) = held ++ (empty qs).deal ws := by
  induction h with
  | nil => exact ⟨[], nofun, fun _ _ => rfl⟩
  | @cons p u ps us hfit _ ih =>
    obtain ⟨held, hfilled, hdeal⟩ := ih
    refine ⟨(p, some u) :: held, List.forall_mem_cons.2 ⟨rfl, hfilled⟩, fun qs ws => ?_⟩
    have hone : Filled [(p, some u)] := List.forall_mem_singleton.2 rfl
    have hgive : (empty (p :: (ps ++ qs))).give u = [(p, some u)] ++ empty (ps ++ qs) := by
      rw [empty, List.map_cons, give, if_pos hfit]
      rfl
    calc (empty (p :: (ps ++ qs))).deal (u :: (us ++ ws))
        = deal ([(p, some u)] ++ empty (ps ++ qs)) (us ++ ws) := congrArg (deal · _) hgive
      _ = [(p, some u)] ++ (held ++ (empty qs).deal ws) := by
        rw [deal_append_of_filled hone, hdeal]

theorem filled_deal_of_forall₂ (h : Pattern.Suited ps us) :
    ((empty ps).deal us).Filled := by
  obtain ⟨held, hfilled, hdeal⟩ := exists_deal_append h
  have hall := hdeal [] []
  rw [List.append_nil, List.append_nil] at hall
  rw [hall]
  exact List.forall_mem_append.2 ⟨hfilled, nofun⟩

theorem exists_of_filled_deal (h : ((empty ps).deal ws).Filled) :
    ∃ us, us.Subperm ws ∧ Pattern.Suited ps us := by
  have hwords := subperm_words_deal (empty ps) ws
  have hforall := h.forall₂ ((fitting_empty ps).deal ws)
  rw [words_empty, List.append_nil] at hwords
  rw [map_fst_deal, map_fst_empty] at hforall
  exact ⟨_, hwords, hforall⟩

theorem exists_perm_filled_iff : (∃ ws', ws'.Perm ws ∧ ((empty ps).deal ws').Filled) ↔
    ∃ us, us.Subperm ws ∧ Pattern.Suited ps us := by
  constructor
  · rintro ⟨ws', hperm, hfilled⟩
    obtain ⟨us, hus, hfit⟩ := exists_of_filled_deal hfilled
    exact ⟨us, hus.trans hperm.subperm, hfit⟩
  · rintro ⟨us, ⟨ws', hws, hsub⟩, hfit⟩
    obtain ⟨rest, hrest⟩ := hsub.exists_perm_append
    refine ⟨us ++ rest, ((hws.append_right rest).symm.trans hrest.symm), ?_⟩
    rw [deal_append]
    exact (filled_deal_of_forall₂ hfit).deal rest

section Free

variable {p q : Pattern}

theorem getElem?_give {k : Nat} {v : UInt32} (h : hand[k]? = some (q, some v)) (w : UInt32) :
    (hand.give w)[k]? = some (q, some v) := by
  fun_induction give w hand generalizing k with
  | case1 => exact h
  | case2 p rest hfit => cases k with
    | zero => cases h
    | succ k => exact h
  | case3 p rest hfit ih => cases k with
    | zero => cases h
    | succ k => exact ih h
  | case4 p u rest ih => cases k with
    | zero => exact h
    | succ k => exact ih h

theorem getElem?_deal {k : Nat} {v : UInt32} (h : hand[k]? = some (q, some v))
    (ws : List UInt32) : (hand.deal ws)[k]? = some (q, some v) := by
  induction ws generalizing hand with
  | nil => exact h
  | cons w ws ih => exact ih (getElem?_give h w)

theorem length_give (w : UInt32) (hand : Hand) : (hand.give w).length = hand.length := by
  simpa using congrArg List.length (map_fst_give w hand)

/-- As long as a pattern is free, the patterns before it take all words that it fits. -/
theorem countP_of_free {before behind : Hand} (ws : List UInt32)
    (h : ((before ++ (q, none) :: behind).deal ws)[before.length]? = some (q, none)) :
    (before.deal ws).words.countP q.fit = before.words.countP q.fit + ws.countP q.fit := by
  induction ws generalizing before behind with
  | nil => rfl
  | cons w ws ih =>
    have hstep : ∀ hand : Hand, hand.deal (w :: ws) = (hand.give w).deal ws := fun _ => rfl
    rw [hstep] at h ⊢
    rcases give_append w before ((q, none) :: behind) with ⟨htaken, hwords⟩ | ⟨hpassed, hsame⟩
    · rw [htaken, ← length_give w before] at h
      rw [ih h, hwords.countP_eq, List.countP_cons, List.countP_cons]
      omega
    · rw [hpassed, give] at h
      rw [hsame]
      split at h
      · next hfit =>
        have hlast : (before ++ (q, some w) :: behind)[before.length]? = some (q, some w) := by
          simp
        rw [getElem?_deal hlast] at h
        cases h
      · next hfit =>
        rw [ih h, List.countP_cons, if_neg hfit]
        rfl

open Classical in
/-- How many of the patterns fit no other words than `q`. -/
noncomputable def inside (q : Pattern) (ps : List Pattern) : Nat :=
  ps.countP fun p => decide (∀ w, p.fit w = true → q.fit w = true)

theorem inside_cons_self (h : ∀ w, p.fit w = true → q.fit w = true) (ps : List Pattern) :
    inside q (p :: ps) = inside q ps + 1 := List.countP_cons_of_pos (decide_eq_true h)

theorem inside_le_cons (p q : Pattern) (ps : List Pattern) :
    inside q ps ≤ inside q (p :: ps) := (List.sublist_cons_self p ps).countP_le

theorem inside_append (q : Pattern) (ps qs : List Pattern) :
    inside q (ps ++ qs) = inside q ps + inside q qs := List.countP_append

/-- Words that are held by patterns and fit `q` are no more than the patterns inside of it. -/
theorem countP_words_le (hfit : hand.Fitting) (hnested : ∀ x ∈ hand, x.1.Nested q) :
    hand.words.countP q.fit ≤ inside q (hand.map Prod.fst) := by
  induction hand with
  | nil => exact Nat.zero_le _
  | cons x rest ih =>
    obtain ⟨hfitx, hfitrest⟩ := List.forall_mem_cons.1 hfit
    obtain ⟨hx, hrest⟩ := List.forall_mem_cons.1 hnested
    obtain ⟨p, held⟩ := x
    have hle := ih hfitrest hrest
    have hmore := inside_le_cons p q (rest.map Prod.fst)
    rw [List.map_cons]
    change _ ≤ inside q (p :: rest.map Prod.fst)
    cases held with
    | none => exact hle.trans hmore
    | some w =>
      have hwords : words ((p, some w) :: rest) = w :: words rest := rfl
      rw [hwords, List.countP_cons]
      split
      · next hqw =>
        rw [inside_cons_self (hx ⟨w, hfitx w rfl, hqw⟩)]
        omega
      · omega

theorem inside_le_countP (h : Pattern.Suited ps us) :
    inside q ps ≤ us.countP q.fit := by
  induction h with
  | nil => exact Nat.zero_le _
  | @cons p u ps us hfit _ ih =>
    rw [List.countP_cons]
    by_cases hin : ∀ w, p.fit w = true → q.fit w = true
    · rw [inside_cons_self hin, if_pos (hin u hfit)]
      omega
    · have hout : inside q (p :: ps) = inside q ps :=
        List.countP_cons_of_neg (by simpa using hin)
      omega

theorem exists_split_of_free (h : (q, none) ∈ (empty ps).deal ws) : ∃ before behind,
    ps = before ++ q :: behind ∧
      ((empty before).deal ws).words.countP q.fit = ws.countP q.fit := by
  obtain ⟨k, hk⟩ := List.getElem?_of_mem h
  have hpattern : ps[k]? = some q := by
    rw [← map_fst_empty ps, ← map_fst_deal _ ws, List.getElem?_map, hk]
    rfl
  obtain ⟨hlt, hq⟩ := List.getElem?_eq_some_iff.1 hpattern
  have hsplit : ps = ps.take k ++ q :: ps.drop (k + 1) := by
    rw [← hq, List.getElem_cons_drop, List.take_append_drop]
  have hlength : (empty (ps.take k)).length = k := by
    simp [empty]
    omega
  have hempty : empty ps = empty (ps.take k) ++ (q, none) :: empty (ps.drop (k + 1)) := by
    conv_lhs => rw [hsplit]
    simp [empty]
  rw [hempty] at hk
  have hcount := countP_of_free ws (by rw [hlength]; exact hk)
  rw [words_empty, List.countP_nil, Nat.zero_add] at hcount
  exact ⟨_, _, hsplit, hcount⟩

/-- Nested patterns find their words in every order: a pattern that stays free would leave fewer
words to those inside of it than there are. -/
theorem filled_deal_of_nested (hnested : ps.Pairwise Pattern.Nested) (hus : us.Subperm ws)
    (h : Pattern.Suited ps us) : ((empty ps).deal ws).Filled := by
  rintro ⟨q, held⟩ hx
  cases held with
  | some w => rfl
  | none =>
    obtain ⟨before, behind, rfl, hcount⟩ := exists_split_of_free hx
    have hbefore : ∀ x ∈ (empty before).deal ws, x.1.Nested q := by
      intro x hx
      have hmem : x.1 ∈ before := by
        rw [← map_fst_empty before, ← map_fst_deal _ ws]
        exact List.mem_map_of_mem hx
      exact (List.pairwise_append.1 hnested).2.2 x.1 hmem q List.mem_cons_self
    have hheld := countP_words_le ((fitting_empty before).deal ws) hbefore
    have hown := inside_le_countP (q := q) h
    have hmost := hus.countP_le q.fit
    rw [map_fst_deal, map_fst_empty] at hheld
    rw [inside_append, inside_cons_self fun _ => id] at hown
    omega

/-- A word of the pattern, the given one if it fits. -/
def own (b : UInt32) (p : Pattern) : UInt32 := if p.fit b then b else p.value

theorem fit_own (b : UInt32) (p : Pattern) : p.fit (own b p) = true := by
  rw [own]
  split
  · assumption
  · exact p.fit_value

theorem forall₂_own (b : UInt32) (ps : List Pattern) :
    Pattern.Suited ps (ps.map (own b)) := by
  simp [List.forall₂_map_right_iff, List.forall₂_same, fit_own]

theorem count_own (b : UInt32) (ps : List Pattern) :
    ps.countP (fun p => p.fit b) ≤ (ps.map (own b)).count b := by
  rw [List.count, List.countP_map]
  refine List.countP_mono_left fun p _ hfit => ?_
  simp [own, hfit]

theorem count_le_of_forall₂ (h : Pattern.Suited ps us) (b : UInt32) :
    us.count b ≤ ps.countP fun p => p.fit b := by
  induction h with
  | nil => exact Nat.zero_le _
  | @cons p u ps us hfit _ ih =>
    rw [List.count_cons, List.countP_cons]
    by_cases hu : u = b
    · subst hu
      simp only [beq_self_eq_true, hfit, if_true]
      omega
    · simp only [beq_iff_eq, hu, if_false]
      omega

section Late

variable {first between last : List Pattern} {a b : UInt32}

/-- Once `a` is taken by `p`, `b` and the words like it are more than the patterns for them. -/
theorem not_filled_late (hpa : p.fit a = true) (hqb : ¬ q.fit b = true) :
    ¬ ((empty ((first ++ [p]) ++ (between ++ q :: last))).deal
      ((first.map (own b) ++ [a]) ++ (between.map (own b) ++ b :: last.map (own b)))).Filled := by
  obtain ⟨held, -, hdeal⟩ :=
    exists_deal_append (List.rel_append (forall₂_own b first) (.cons hpa .nil))
  rw [hdeal]
  intro hfilled
  obtain ⟨us, hus, hfit⟩ := exists_of_filled_deal (List.forall_mem_append.1 hfilled).2
  have hlength : (between.map (own b) ++ b :: last.map (own b)).length ≤ us.length := by
    rw [← hfit.length_eq]
    simp
  have hcount := (hus.perm_of_length_le hlength).count_eq b
  have hfew := count_le_of_forall₂ hfit b
  have hmany := count_own b between
  have hmore := count_own b last
  have hskip : (q :: last).countP (fun p => p.fit b) = last.countP fun p => p.fit b :=
    List.countP_cons_of_neg hqb
  rw [List.countP_append, hskip] at hfew
  simp only [List.count_append, List.count_cons_self] at hcount
  omega

theorem perm_swapped (us vs ws : List UInt32) (a b : UInt32) :
    ((us ++ [b]) ++ (vs ++ a :: ws)).Perm ((us ++ [a]) ++ (vs ++ b :: ws)) := by
  simp only [List.append_assoc, List.singleton_append]
  refine List.Perm.append_left us ?_
  exact (List.perm_middle.cons b).trans
    ((List.Perm.swap a b _).trans (List.perm_middle.symm.cons a))

end Late

/-- If `a` fits two patterns and `b` only the first one, `b` may come before `a`, but not after
it. -/
theorem nested_of_perm (hall : ∀ ws ws' : List UInt32, ws.Perm ws' →
    (((empty ps).deal ws).Filled ↔ ((empty ps).deal ws').Filled)) : ps.Pairwise Pattern.Nested := by
  rw [List.pairwise_iff_forall_sublist]
  rintro p q hsub ⟨a, hpa, hqa⟩ b hpb
  by_contra hqb
  obtain ⟨front, back, rfl, hp, hq⟩ := List.cons_sublist_iff.1 hsub
  obtain ⟨first, next, rfl⟩ := List.append_of_mem hp
  obtain ⟨middle, last, rfl⟩ := List.append_of_mem (List.singleton_sublist.1 hq)
  have hps : first ++ p :: next ++ (middle ++ q :: last) =
      (first ++ [p]) ++ ((next ++ middle) ++ q :: last) := by simp
  rw [hps] at hall
  have hgood := List.rel_append (List.rel_append (forall₂_own b first) (.cons hpb .nil))
    (List.rel_append (forall₂_own b (next ++ middle)) (.cons hqa (forall₂_own b last)))
  exact not_filled_late hpa hqb ((hall _ _ (perm_swapped _ _ _ a b)).1
    (filled_deal_of_forall₂ hgood))

end Free

end Hand

namespace Group

variable {g : Group}

/-- Offers the words one after the other, each with its number. -/
def offerAll (g : Group) (words : List UInt32) : Group :=
  words.zipIdx.foldl (fun g x => g.offer x.1 x.2) g

/-- A released group has a word for each pattern after these words. -/
def completes (g : Group) (words : List UInt32) : Bool := (g.release.offerAll words).complete

theorem Floating.hand_offers (h : g.Floating) (offers : List (UInt32 × Nat)) :
    (offers.foldl (fun g x => g.offer x.1 x.2) g).hand = g.hand.deal (offers.map Prod.fst) := by
  induction offers generalizing g with
  | nil => rfl
  | cons x offers ih =>
    have hfloating : ∀ y ∈ g.hand, y.1.Floating := by
      simpa [hand, Member.held, Floating, patterns] using h
    have hnext := ih (h.of_blank (g.blank_offer x.1 x.2))
    rw [hand_offer, Hand.place_eq_give hfloating] at hnext
    exact hnext

theorem filled_hand (g : Group) : g.hand.Filled ↔ g.complete = true := by
  have hheld : ∀ m : Member, m.held.2.isSome = m.taken := fun m => by
    rw [Member.held]
    cases m.taken <;> rfl
  simp [Hand.Filled, hand, complete, hheld]

theorem Floating.completes_iff (h : g.Floating) (words : List UInt32) :
    g.completes words = true ↔ ((Hand.empty g.patterns).deal words).Filled := by
  have hhand := (h.of_blank g.blank_release).hand_offers words.zipIdx
  rw [hand_release, List.zipIdx_map_fst] at hhand
  rw [completes, ← filled_hand, offerAll, hhand]

/-- Whether a group completes does not depend on the order of the words just if its patterns are
nested. Without that, some order completes it just if there is a word for each pattern. -/
theorem completes_perm_iff (h : g.Floating) :
    ((∀ ws ws' : List UInt32, ws.Perm ws' → (g.completes ws = true ↔ g.completes ws' = true)) ↔
      g.patterns.Pairwise Pattern.Nested) ∧
    ∀ ws : List UInt32, (∃ ws', ws'.Perm ws ∧ g.completes ws' = true) ↔
      ∃ us, us.Subperm ws ∧ Pattern.Suited g.patterns us := by
  simp only [h.completes_iff]
  refine ⟨⟨Hand.nested_of_perm, fun hnested ws ws' hperm => ?_⟩,
    fun ws => Hand.exists_perm_filled_iff⟩
  constructor
  · intro hfilled
    obtain ⟨us, hus, hfit⟩ := Hand.exists_of_filled_deal hfilled
    exact Hand.filled_deal_of_nested hnested (hus.trans hperm.subperm) hfit
  · intro hfilled
    obtain ⟨us, hus, hfit⟩ := Hand.exists_of_filled_deal hfilled
    exact Hand.filled_deal_of_nested hnested (hus.trans hperm.symm.subperm) hfit

/-- Zero and one fit patterns that are nested in their order, whichever of them comes first. -/
theorem completes_perm_iff_lowest :
    let g : Group := ⟨[.ofPattern (.lowest .one), .ofPattern (.lowest .any)]⟩
    parse ["1", "X"] = .ok g ∧ g.Floating ∧ g.patterns.Pairwise Pattern.Nested ∧
      ∀ ws ∈ [0, 1].permutations, g.completes ws = true := by
  intro g
  have hfloating : g.Floating := by
    change ∀ p ∈ [Pattern.lowest .one, .lowest .any], p.Floating
    decide +kernel
  have hopen : (Pattern.lowest .any).symbols = List.replicate 32 .any := by decide +kernel
  have hnested : g.patterns.Pairwise Pattern.Nested := by
    refine List.pairwise_pair.2 fun _ w _ => ?_
    change fits (Pattern.lowest .any).symbols w.toNat = true
    rw [hopen, fits_open]
  obtain ⟨hperm, -⟩ := completes_perm_iff hfloating
  refine ⟨by decide +kernel, hfloating, hnested, fun ws hws => ?_⟩
  exact (hperm.2 hnested ws [0, 1] (List.mem_permutations.1 hws)).2 (by decide +kernel)

/-- One fits both patterns and zero only the first one, which a one that comes first has taken. -/
theorem arrival_order_matters :
    ∃ g, parse ["X", "1"] = .ok g ∧ g.Built ∧ g.Floating ∧ [0, 1].Perm ([1, 0] : List UInt32) ∧
      g.completes [0, 1] = true ∧ g.completes [1, 0] = false := by
  have hparse : parse ["X", "1"] =
      .ok ⟨[.ofPattern (.lowest .any), .ofPattern (.lowest .one)]⟩ := by decide +kernel
  exact ⟨_, hparse, built_parse hparse, floating_parse hparse, by decide, by decide +kernel,
    by decide +kernel⟩

end Group

end Readout
