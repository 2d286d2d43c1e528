import OneShot.Session.Operation

/-!
# Pending operations

What an operation does with the answer of a call, or while it waits for another thread
(`Pending.resume`). A panic of the call leaves the operation.
-/

namespace OneShot.Session

/-- The report of an answer as it is. -/
def reportAnswer : Answer → Report
  | .bool b => .bool b
  | .count n => .count n
  | .time ms => .reading ms
  | .settled r => .settled r
  | .notified r => .notified r
  | .read r => .read r
  | .polled none => .pending
  | .polled (some r) => .read r
  | _ => .ok

/-- The next step of a race: the next thread, or what follows when all have done their work. -/
def continueRace (ctx : Context) (race : Race) (left : Nat) : OpStep :=
  match left with
  | left + 1 => request ctx .spawn (.racing race left none)
  | 0 =>
    if race.completing then finish ctx (.count (ctx.state.tally race.tally))
    else request ctx (.complete race.promise (.value race.value)) (.raced race none)

/-- What an operation does with the answer of a call, or while it waits. -/
def Pending.resume (ctx : Context) (k : Pending) (c : Control) : OpStep :=
  let st := ctx.state
  let stay : OpStep := { state := st, next := .stay k }
  match k, c with
  | _, .raise x => { state := st, next := .throw x }
  | reply, .ret a => finish ctx (reportAnswer a)
  | report r, .ret _ => finish ctx r
  | bindPromise name kind, .ret (.promise p) =>
    { state := { st with promises := st.promises.bind name { id := p, kind } }, next := .done .ok }
  | bindDerived name, .ret (.derived d) =>
    { state := { st with promises := st.promises.bind name { id := d, kind := .chain } },
      next := .done .ok }
  | bindWait name, .ret (.wait w) =>
    let state := { st with waits := st.waits.bind name w }
    match st.waits.get? name with
    | some old => { state, next := .call (.dropWait old) (.report .ok) }
    | none => { state, next := .done .ok }
  | elapsed, .ret (.time ms) => finish ctx (.millis (ctx.span ms))
  | inspected h seen, .ret (.time ms) =>
    finish ctx (.inspection { seen with duration := ctx.span ms, display := ctx.display h })
  | reading, .ret (.time ms) => finish ctx (.reading ms)
  | judged policy, .ret (.judged d) => finish ctx (.judged d policy)
  | named name op, .ret (.thread t) =>
    let state := { st with
      threads := st.threads.bind name t
      threadNames := st.threadNames.bind t name }
    perform { ctx with machine := { ctx.machine with program := state } } op
  | running t, _ =>
    match ctx.machine.thread? t with
    | some { control, frames := [], .. } =>
      match control with
      | .raise x =>
        if ctx.isUnwinding then
          { state := st, events := [.panicSuppressed x], next := .done .ok }
        else { state := st, next := .throw x }
      | _ => finish ctx .ok
    | _ => stay
  | starting t, _ =>
    if isResting ctx.machine t then
      let settled := isIdle ctx.machine t
      { state := st.modifyStarted t ({ · with settled }), next := .done .started }
    else stay
  | settling t, _ =>
    match st.started? t with
    | some { kind := .get, .. } | some { kind := .getTimeout _, .. } =>
      if isIdle ctx.machine t then
        { state := st.modifyStarted t ({ · with settled := true }), next := .done .ok }
      else stay
    | _ => finish ctx .ok
  | joining t, _ =>
    if isIdle ctx.machine t then
      let result := (st.started? t).bind (·.result)
      { state := st.eraseStarted t
        next := .done (match result with
          | some r => .read r
          | none => .unfinished) }
    else stay
  | racing race left none, .ret (.thread t) =>
    { state := { st with threadNames := st.threadNames.bind t "race" },
      next := .call (.fork t (.race race)) (.racing race left (some t)) }
  | racing race left none, .go => continueRace ctx race left
  | racing race left (some t), _ =>
    if isIdle ctx.machine t then continueRace ctx race left else stay
  | raced race none, .ret (.settled r) => request ctx (.count race.promise) (.raced race (some r))
  | raced race (some r), .ret (.count n) => finish ctx (.race r (st.tally race.tally) n)
  | _, _ => finish ctx .unfinished

end OneShot.Session
