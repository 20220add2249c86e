import Suspension.Proofs.Waiting.Departure
import Suspension.Proofs.Waiting.Preparation
import Suspension.Proofs.Waiting.Tidiness

/-!
# Suspension is unobservable

Two bodies that are the same except for the numbers of steps that their futures take are lowered to
bodies that run in one piece as the same tree, the one whose futures take none. Each session goes
along with that run (`Layout.session_reckons`). So they come to the same, with the same lines
traced, however often each of them is left at its suspend points and builds its tasks and variables
anew.
-/

namespace Suspension

open Build Steps TransitionSystem Session

/-- Whatever one session comes to, another comes to as well: the same value, or an error for the
same cause. Their hosts are the same then, but for when futures are completed, and so are their
traces. -/
def Session.Matches (s s' : Session) : Prop :=
  ∀ x t, s.ComesTo x t → ∃ x' t', s'.ComesTo x' t' ∧
    x.mapError Stop.unplaced = x'.mapError Stop.unplaced ∧ t.host.Alike t'.host ∧
    t.host.trace = t'.host.trace

namespace Session.Reckons

variable {x : Outcome × Frame} {t t' : Session}

/-- What a run reckons is no suspension. -/
theorem exists_completed {r : Except Stop Progress} (h : Reckons x (r, t)) :
    ∃ y : Except Stop Value, r = y.map .completed := by
  obtain ⟨e, -, same, -⟩ := h
  cases r with
  | error reason => exact ⟨.error reason, rfl⟩
  | ok progress =>
    cases verdict : e.verdict x.2.host with
    | error reason =>
      rw [verdict] at same
      cases same
    | ok v =>
      rw [verdict] at same
      cases same
      exact ⟨.ok v, rfl⟩

/-- Sessions that come to what one run reckons come to the same. -/
theorem same {y y' : Except Stop Value} (h : Reckons x (y.map .completed, t))
    (h' : Reckons x (y'.map .completed, t')) :
    y.mapError Stop.unplaced = y'.mapError Stop.unplaced ∧ t.host.Alike t'.host := by
  obtain ⟨e, exit, same, host⟩ := h
  obtain ⟨e', exit', same', host'⟩ := h'
  obtain rfl : e = e' := Except.error.inj (exit.symm.trans exit')
  refine ⟨?_, host.symm.trans host'⟩
  have both := same.trans same'.symm
  rcases y with reason | v <;> rcases y' with reason' | v'
  · exact congrArg Except.error (Except.error.inj both)
  · cases both
  · cases both
  · cases both
    rfl

end Session.Reckons

/-- Reasons that are the same wherever they arose run out of fuel together. -/
theorem ne_outOfFuel_of_unplaced {y y' : Except Stop Value}
    (same : y.mapError Stop.unplaced = y'.mapError Stop.unplaced) (enough : y ≠ .error .outOfFuel) :
    y' ≠ .error .outOfFuel := by
  rintro rfl
  rcases y with (f | _ | _) | v
  · cases same
  · cases same
  · exact enough rfl
  · cases same

/-- Sessions that go along with one run match. -/
theorem Session.matches_of_reckons {s s' : Session} {c : Configuration}
    (first : ∀ y, driving.Ends s.begins y → ∃ x, (system waiting).Ends c x ∧ Reckons x y)
    (second : ∀ x, (system waiting).Ends c x → ∃ y, driving.Ends s'.begins y ∧ Reckons x y) :
    s.Matches s' := by
  intro y t comes
  obtain ⟨enough, ends⟩ := comesTo_iff_ends.1 comes
  obtain ⟨x, run, reckons⟩ := first _ ends
  obtain ⟨⟨r, t'⟩, ends', reckons'⟩ := second x run
  obtain ⟨y', rfl⟩ := reckons'.exists_completed
  obtain ⟨same, host⟩ := reckons.same reckons'
  exact ⟨y', t', comesTo_iff_ends.2 ⟨ne_outOfFuel_of_unplaced same enough, ends'⟩, same, host,
    host.trace⟩

/-- Bodies that are the same except for the numbers of steps that their futures take run in one
piece as one tree, from one start. -/
theorem Layout.prompt_congr {body body' : Node} {s s₁ s₂ : Supply} {l l' : Lowered} (L : Layout l)
    (L' : Layout l') (prepares : runs (body.prepare {}) s L.prepared s₁)
    (prepares' : runs (body'.prepare {}) s L'.prepared s₂) (same : body.prompt = body'.prompt) :
    L.prompt = L'.prompt ∧ l.hoisted = l'.hoisted := by
  have prompt {body prepared : Node} {s' : Supply} (h : runs (body.prepare {}) s prepared s') :
      (body.prompt.prepare {} s).1 = prepared.prompt := by
    rw [Node.prepare_prompt, map_run]
    exact congrArg (fun made : Node × Supply ↦ made.1.prompt) h
  have prepared : L.prepared.prompt = L'.prepared.prompt := by
    rw [← prompt prepares, ← prompt prepares', same]
  refine ⟨?_, ?_⟩
  · rw [Layout.prompt, Layout.prompt, ← Node.settle_prompt, ← Node.settle_prompt, prepared]
  · rw [L.hoisted, L'.hoisted, ← L.prepared.hoistable_prompt, ← L'.prepared.hoistable_prompt,
      prepared]

/-- **Suspension is unobservable.** Two tidy bodies are the same except for the constant numbers of
steps that their futures take. Both are lowered under one supply, both are driven with the same
values for parameters on the same host, and neither session makes a text of a future. Then if either
session comes to an end, the other does too, with the same value or with an error for the same
cause, and with the same trace. -/
theorem Node.LowersTo.unobservable {body body' : Node} {supply : Supply} {l l' : Lowered}
    {args : List (Variable × Value)} {host : Host} (lowers : body.LowersTo supply l)
    (lowers' : body'.LowersTo supply l') (same : body.prompt = body'.prompt)
    (tidy : body.Tidy (args.map (·.1.id))) (tidy' : body'.Tidy (args.map (·.1.id)))
    (older : ∀ a ∈ args, a.1.id.toNat < supply.symbol) (discreet : (l.session args host).Discreet)
    (discreet' : (l'.session args host).Discreet) :
    (l.session args host).Matches (l'.session args host) ∧
      (l'.session args host).Matches (l.session args host) := by
  obtain ⟨L, s, s₁, fresh, le, prepares, whole, -, added⟩ := lowers.layout_of_runs
  obtain ⟨L', s', s₂, fresh', -, prepares', whole', -, added'⟩ := lowers'.layout_of_runs
  obtain rfl : s = s' := (congrArg Prod.snd fresh).symm.trans (congrArg Prod.snd fresh')
  obtain ⟨prompt, hoisted⟩ := L.prompt_congr L' prepares prepares' same
  have params : ∀ id ∈ args.map (·.1.id), id.toNat < supply.symbol := List.forall_mem_map.2 older
  have fair := L.fair lowers le prepares whole added tidy params
  have fair' := L'.fair lowers' le prepares' whole' added' tidy' params
  -- Both sessions go along with one run.
  have origin : l.origin args = l'.origin args := by rw [Lowered.origin, Lowered.origin, hoisted]
  have along := L.session_reckons fair discreet
  have along' := L'.session_reckons fair' discreet'
  rw [← prompt, ← origin] at along'
  exact ⟨matches_of_reckons along.1 along'.2, matches_of_reckons along'.1 along.2⟩

/-- A future that is completed after a while, and one that fails after a while: with these numbers
of steps the body is resumed twice, with none it is not. -/
theorem Node.LowersTo.unobservable_failing : ∃ (body body' : Node) (l l' : Lowered)
    (args : List (Variable × Value)) (t : Session), body.LowersTo { node := 16, symbol := 4 } l ∧
      body'.LowersTo { node := 16, symbol := 4 } l' ∧ body.prompt = body'.prompt ∧
      (l.session args {}).ComesTo (.ok (.int 7)) t ∧ t.machine.resumptions = 2 ∧
      t.host.trace = #["error(late)"] ∧ (l.session args {}).Matches (l'.session args {}) ∧
      (l'.session args {}).Matches (l.session args {}) := by
  let p : Variable := ⟨1, "p", .any⟩
  let x : Variable := ⟨2, "x", .any⟩
  let e : Variable := ⟨3, "e", .any⟩
  let body (a b : Int64) : Node := ⟨15, .block [x] [
    ⟨4, .assign x ⟨3, .await ⟨2, .call "pending" [⟨0, .var p⟩, ⟨1, .const (.int a)⟩]⟩ none .any⟩⟩,
    ⟨11, .region
      ⟨8, .await ⟨7, .call "fail" [⟨5, .const (.str "late")⟩, ⟨6, .const (.int b)⟩]⟩ none .unit⟩
      [⟨some e, none, ⟨10, .call "trace" [⟨9, .var e⟩]⟩⟩] none none⟩,
    ⟨14, .ret (some ⟨13, .var x⟩)⟩]⟩
  let args : List (Variable × Value) := [(p, .int 7)]
  have older (a b : Int64) : (body a b).Older { node := 16, symbol := 4 } := by
    have small : (body a b).symbols.all (·.toNat < 4) = true := rfl
    simpa [Node.Older] using small
  have tidy (a b : Int64) : (body a b).Tidy (args.map (·.1.id)) := by
    have names : (body a b).names true = [2, 3] := rfl
    refine ⟨by rw [names]; decide, by simp [names, args, p], ?_, rfl⟩
    simp [body, args, p, x, e, Node.scoped_iff, Shape.uses, Shape.scopes, Shape.children,
      Clause.children]
  have same : (body 3 2).prompt = (body 0 0).prompt := rfl
  obtain ⟨l, lowers, holds⟩ := Node.exists_lowersTo_with (older 3 2) (fun l ↦
    let run := (l.session args {}).drive 100 2
    (l.session args {}).isDiscreet 100 3 && decide (run.1 = .ok (.int 7)) &&
      decide (run.2.machine.resumptions = 2) && decide (run.2.host.trace = #["error(late)"]))
    (by decide +kernel)
  obtain ⟨l', lowers', discreet'⟩ := Node.exists_lowersTo_with (older 0 0)
    (fun l ↦ (l.session args {}).isDiscreet 100 1) (by decide +kernel)
  simp only [Bool.and_eq_true, decide_eq_true_eq] at holds
  obtain ⟨⟨⟨discreet, value⟩, resumed⟩, traced⟩ := holds
  have comes := comesTo_of_drive (Prod.ext value rfl) (by simp) (by simp [faultAt])
  exact ⟨body 3 2, body 0 0, l, l', args, _, lowers, lowers', same, comes, resumed, traced,
    lowers.unobservable lowers' same (tidy 3 2) (tidy 0 0) (by decide)
      (discreet_of_isDiscreet discreet) (discreet_of_isDiscreet discreet')⟩

end Suspension
