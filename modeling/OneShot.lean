import OneShot.Machine.Lemmas
import OneShot.Proofs.Listener.Once
import OneShot.Proofs.Waking.Wakes
import OneShot.Session.Run
import OneShot.Proofs.Reading.Stages
import OneShot.Proofs.Completion.Order
import OneShot.Proofs.Step.Guard
import OneShot.Proofs.History.Guards
import OneShot.Proofs.Reading.Sleep
import OneShot.Proofs.Reading.Leaving
import OneShot.Proofs.Completion.Ending
import OneShot.Proofs.Completion.Aftermath
import OneShot.Proofs.Reading.Views
import OneShot.Proofs.Chain.Lineage
import OneShot.Proofs.Chain.Handles
import OneShot.Proofs.Chain.Deciding
import OneShot.Proofs.Chain.Dropping
import OneShot.Proofs.Step.Handle
import OneShot.Proofs.Listener.Failure
import OneShot.Proofs.Chain.Propagation
import OneShot.Proofs.Chain.Losses
import OneShot.Proofs.Guard.Progress
import OneShot.Proofs.Chain.Lifetime
import OneShot.Proofs.Chain.Unwinding
import OneShot.Proofs.Chain.Tree
import OneShot.Proofs.Times.Clock
import OneShot.Proofs.Times.Settling
import OneShot.Proofs.Completion.Sequence
import OneShot.Proofs.Idle.Traceless
import OneShot.Proofs.Listener.Custody
import OneShot.Proofs.Waking.Residue
import OneShot.Proofs.Times.Accounting
import OneShot.Proofs.Reading.Sharing
