import OneShot.Machine.Behaviour

/-!
# Notifying a listener

The steps of running one listener of a promise that is done.

- **A failure** is classified by the promise's policy and logged. If it is absorbed, the
  notification went well; if it is propagated, the failure is the answer.
- **A chain listener** completes its target with what its callback returns. A failure handed back by
  that completion is a failure of the chain listener.
- **A chain callback that panics** cancels the target before the panic goes on. What comes out of
  that cancellation is dropped; a panic that comes out of it aborts the machine.
-/

namespace OneShot

variable {H : Host}

/-- The decision of a policy that does not ask the program. -/
def Policy.decide? (policy : Policy H) (e : ListenerError) : Option Disposition :=
  match policy with
  | standard => some (if e.isUnavailable then .absorb else .propagate)
  | absorbAll => some .absorb
  | propagateAll => some .propagate
  | custom _ => none

/-- Logs a failure of a listener of `p` as classified, and ends its notification. -/
def Machine.conclude (m : Machine H) (p : PromiseId) (e : ListenerError) :
    Disposition → Machine H × Next H
  | .absorb => (m.record (.absorbed p (m.display p) e), .answer (.notified (.ok ())))
  | .propagate => (m.record (.propagated p (m.display p) e), .answer (.notified (.error e)))

/-- What follows when a listener has returned. -/
def Notifying.ofResult (p : PromiseId) : Except ListenerError Unit → Next H
  | .ok () => .answer (.notified (.ok ()))
  | .error e => .goto (.notifying p (.settle e))

/-- A step of notifying a listener of `p`. -/
def Notifying.step (b : Behaviour H) (m : Machine H) (t : ThreadId) (p : PromiseId)
    (c : Control) : Notifying H → Move H
  | .listening code =>
    m.runCode b t code c (fun k => .notifying p (.listening k)) fun m r =>
      some (m, Notifying.ofResult p r)
  | .observing code =>
    m.runCode b t code c (fun k => .notifying p (.observing k)) fun m _ =>
      some (m, .answer (.notified (.ok ())))
  | .transforming target code =>
    match m.resume b t code c with
    | (m, .call callee k) => some (m, .enter callee.frame (.notifying p (.transforming target k)))
    | (m, .stay k) => some (m, .goto (.notifying p (.transforming target k)))
    | (m, .finish r) =>
      some (m, .enter (.completing target (.claim (.ofExcept r))) (.notifying p (.relaying target)))
    | (m, .panic x) =>
      some (m.record (.chainPanicked target (m.display target)),
        .enter (.completing target (.claim .cancelled)) (.notifying p (.cleaning target x)))
  | .relaying _ =>
    match c with
    | .ret (.settled (.ok _)) => some (m, Notifying.ofResult p (.ok ()))
    | .ret (.settled (.error e)) => some (m, Notifying.ofResult p (.error e))
    | .raise x => some (m, .throw x)
    | _ => none
  | .cleaning _ x =>
    match c with
    | .ret _ => some (m, .throw x)
    | .raise _ => some (m, .abort)
    | .go => none
  | .settle e => m.runStage c do
    let pr ← m.promise? p
    match pr.policy with
    | .custom classify =>
      some (m, .goto (.notifying p (.settling e (H.invoke .policy classify e))))
    | policy => (policy.decide? e).map (m.conclude p e)
  | .settling e code =>
    m.runCode b t code c (fun k => .notifying p (.settling e k)) fun m d =>
      some (m.conclude p e d)

end OneShot
