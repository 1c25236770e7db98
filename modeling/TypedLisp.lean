import TypedLisp.Error.Report
import TypedLisp.Main
import TypedLisp.Node.Equality
import TypedLisp.Proofs.Application
import TypedLisp.Proofs.Definitions
import TypedLisp.Proofs.Environment
import TypedLisp.Proofs.FirstOrder.Correctness
import TypedLisp.Proofs.FreshName
import TypedLisp.Proofs.Hint
import TypedLisp.Proofs.Identity
import TypedLisp.Proofs.Interface
import TypedLisp.Proofs.Layout
import TypedLisp.Proofs.MacroArgument
import TypedLisp.Proofs.Pieces
import TypedLisp.Proofs.Places.Report
import TypedLisp.Proofs.Reading.Completion
import TypedLisp.Proofs.Reading.TypedRoundTrip
import TypedLisp.Proofs.Signature
import TypedLisp.Proofs.Symbol
import TypedLisp.Proofs.TypeErasure
import TypedLisp.Proofs.Typing.Idempotence
import TypedLisp.Proofs.Typing.MostGeneral
import TypedLisp.Proofs.Unary
