import Readout.Config.Build
import Readout.Proofs.Graph.Workbench
import Readout.Proofs.Source.Addresses

/-!
# Drafting

A computation on drafts either fails, and then nothing is built, or goes through. `Leads` says what
holds of a computation that goes through; some computations only look at the draft, and what they
have found stays true.
-/
namespace Readout

namespace Drafting

variable {α β γ : Type} {P P' : Draft → Prop} {Q Q' : α → Draft → Prop} {S : β → Draft → Prop}
  {R : Draft → α → Prop} {x : Drafting α} {k : α → Drafting β}

/-- From drafts of the first kind, the computation leads to results and drafts of the second. -/
def Leads (P : Draft → Prop) (x : Drafting α) (Q : α → Draft → Prop) : Prop :=
  ∀ d, P d → ∀ v d', x d = (.ok v, d') → Q v d'

/-- The computation looks at the draft and leaves it as it is. -/
def Reads (x : Drafting α) (R : Draft → α → Prop) : Prop :=
  ∀ d v d', x d = (.ok v, d') → d' = d ∧ R d v

theorem Leads.bind (hx : Leads P x Q) (hk : ∀ v, Leads (Q v) (k v) S) : Leads P (x >>= k) S := by
  intro d hd w d' h
  obtain ⟨v, e, hv, hw⟩ := exists_of_bind_apply_eq h
  exact hk v e (hx d hd v e hv) w d' hw

theorem Leads.read (hx : Reads x R) (hk : ∀ v, Leads (fun d => P d ∧ R d v) (k v) S) :
    Leads P (x >>= k) S := by
  intro d hd w d' h
  obtain ⟨v, e, hv, hw⟩ := exists_of_bind_apply_eq h
  obtain ⟨rfl, hr⟩ := hx d v e hv
  exact hk v e ⟨hd, hr⟩ w d' hw

theorem Leads.pure {v : α} (h : ∀ d, P d → Q v d) : Leads P (Pure.pure v : Drafting α) Q := by
  intro d hd w d' hw
  obtain ⟨hv, rfl⟩ := Prod.mk.inj hw
  obtain rfl := Except.ok.inj hv
  exact h d hd

theorem Leads.weaken (h : Leads P' x Q) (hP : ∀ d, P d → P' d) (hQ : ∀ v d, Q v d → Q' v d) :
    Leads P x Q' :=
  fun d hd v d' hx => hQ v d' (h d (hP d hd) v d' hx)

theorem Leads.assuming {c : Prop} (h : c → Leads P x Q) : Leads (fun d => P d ∧ c) x Q :=
  fun d hd => h hd.2 d hd.1

theorem Leads.modify {f : Draft → Draft} {Q : Draft → Prop} (h : ∀ d, P d → Q (f d)) :
    Leads P (modify f : Drafting PUnit) fun _ => Q := by
  intro d hd v d' hx
  obtain ⟨-, rfl⟩ := Prod.mk.inj hx
  exact h d hd

theorem inContext_apply (c : Context) (x : Drafting α) (d : Draft) :
    inContext c x d = ((x d).1.mapError (Error.within c), (x d).2) := by
  simp only [inContext, ExceptT.mk, ExceptT.run, Bind.bind, StateT.bind]
  rfl

theorem Leads.inContext {c : Context} (h : Leads P x Q) : Leads P (inContext c x) Q := by
  intro d hd v d' hx
  rw [inContext_apply] at hx
  obtain ⟨hv, rfl⟩ := Prod.mk.inj hx
  exact h d hd v _ (Prod.ext (exists_of_mapError_eq_ok hv) rfl)

theorem Leads.fail {e : ConfigError} : Leads P (Draft.fail e : Drafting α) Q := by
  intro d _ v d' hx
  cases hx

theorem Reads.fail {e : ConfigError} : Reads (Draft.fail e : Drafting α) R := by
  intro d v d' hx
  cases hx

theorem Reads.get : Reads (get : Drafting Draft) fun d v => v = d := by
  intro d v d' hx
  obtain ⟨hv, rfl⟩ := Prod.mk.inj hx
  exact ⟨rfl, (Except.ok.inj hv).symm⟩

theorem Reads.pure {v : α} {R : Draft → α → Prop} (h : ∀ d, R d v) :
    Reads (Pure.pure v : Drafting α) R := by
  intro d w d' hx
  obtain ⟨hv, rfl⟩ := Prod.mk.inj hx
  obtain rfl := Except.ok.inj hv
  exact ⟨rfl, h d⟩

theorem Reads.ofExcept (r : Except Error α) :
    Reads (Draft.ofExcept r) fun _ v => r = .ok v := by
  intro d v d' hx
  cases r with
  | error e => cases hx
  | ok w =>
    obtain ⟨hv, rfl⟩ := Prod.mk.inj hx
    exact ⟨rfl, hv⟩

theorem Reads.bind {T : Draft → β → Prop} (hx : Reads x R)
    (hk : ∀ v, Reads (k v) fun d w => R d v → T d w) : Reads (x >>= k) T := by
  intro d w d' h
  obtain ⟨v, e, hv, hw⟩ := exists_of_bind_apply_eq h
  obtain ⟨rfl, hr⟩ := hx d v e hv
  obtain ⟨rfl, ht⟩ := hk v e w d' hw
  exact ⟨rfl, ht hr⟩

theorem Reads.weaken {R' : Draft → α → Prop} (h : Reads x R) (hR : ∀ d v, R d v → R' d v) :
    Reads x R' := fun d v d' hx => ⟨(h d v d' hx).1, hR d v (h d v d' hx).2⟩

theorem Reads.mapM {f : γ → Drafting α} (hf : ∀ c, Reads (f c) R) (cs : List γ) :
    Reads (cs.mapM f) fun d vs => ∀ v ∈ vs, R d v := by
  induction cs with
  | nil => exact .pure fun d v hv => absurd hv List.not_mem_nil
  | cons c cs ih =>
    rw [List.mapM_cons]
    exact (hf c).bind fun v => ih.bind fun vs =>
      .pure fun d hvs hv => List.forall_mem_cons.2 ⟨hv, hvs⟩

theorem Reads.optionMapM {f : γ → Drafting α} (hf : ∀ c, Reads (f c) R) (o : Option γ) :
    Reads (o.mapM f) fun d v => ∀ u ∈ v, R d u := by
  cases o with
  | none => exact .pure fun d u hu => absurd hu (Option.not_mem_none u)
  | some c =>
    rw [Option.mapM_some, map_eq_pure_bind]
    exact (hf c).bind fun v => .pure fun d hv u hu => by
      obtain rfl := Option.mem_some_iff.1 hu
      exact hv

end Drafting

namespace Draft

open Drafting

/-- A pipe of a name of the event, or an element of one. -/
def Knows (event : Nat) (d : Draft) (v : Pipe) : Prop :=
  ∃ n ∈ d.namesOf event, ∃ p ∈ n.outputs, v ∈ p.views

theorem mem_views_of_element {p v : Pipe} {i : Nat} (h : p.element? i = some v) : v ∈ p.views := by
  have hlt := (Span.element?_eq_some (Pipe.element?_eq_some h).1).1
  exact List.mem_cons_of_mem p (List.mem_filterMap.2 ⟨i, List.mem_range.2 hlt, h⟩)

theorem knows_of_resolvePipe {d : Draft} {event : Nat} {text : String} {r : Reference} {v : Pipe}
    (h : d.resolvePipe event text r = .ok v) : d.Knows event v := by
  rw [resolvePipe] at h
  cases hn : d.find? event r.name with
  | none =>
    rw [hn] at h
    cases h
  | some n =>
    have hmem : n ∈ d.namesOf event := List.mem_of_find?_eq_some hn
    cases hp : n.outputs[r.output]? with
    | none =>
      simp only [hn, hp] at h
      cases h
    | some p =>
      have hout := List.mem_of_getElem? hp
      simp only [hn, hp] at h
      split at h
      · obtain rfl := Except.ok.inj h
        exact ⟨n, hmem, p, hout, List.mem_cons_self⟩
      · split at h
        · next hi =>
          obtain rfl := Except.ok.inj h
          exact ⟨n, hmem, p, hout, mem_views_of_element hi⟩
        · cases h

theorem reads_resolve (event : Nat) (text : String) : Reads (resolve event text) (Knows event) := by
  refine (Reads.ofExcept _).bind fun r => Reads.get.bind fun d => ?_
  refine (Reads.ofExcept _).weaken fun d' v hv hd _ => ?_
  subst hd
  exact knows_of_resolvePipe (exists_of_mapError_eq_ok hv)

theorem reads_resolveInput (event : Nat) (i : InputConfig) :
    Reads (resolveInput event i) fun d v => d.Knows event v.pipe := by
  have hpipe : ∀ name : String, Reads (do
      let v ← resolve event i.input
      pure (⟨v, name, i.unit⟩ : Operator.NamedInput)) fun d v => d.Knows event v.pipe := fun name =>
    (reads_resolve event i.input).bind fun v => .pure fun d hv => hv
  rw [resolveInput]
  cases i.name with
  | none =>
    dsimp only
    refine (Reads.ofExcept _).bind fun r => ?_
    rw [pure_bind]
    exact (hpipe r.name).weaken fun d v hv _ => hv
  | some name =>
    dsimp only
    rw [pure_bind]
    exact hpipe name

end Draft

end Readout
