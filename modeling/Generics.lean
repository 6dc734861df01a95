import Generics.Actualization.Basic
import Generics.Actualization.Bounds
import Generics.Actualization.Visit
import Generics.Assignability.Check
import Generics.Assignability.Checker
import Generics.Assignability.Refusal
import Generics.Assignability.Rules
import Generics.Budget.Depth
import Generics.Budget.Guard
import Generics.Budget.Profile
import Generics.Descriptor.Basic
import Generics.Descriptor.Comparison
import Generics.Descriptor.Digest
import Generics.Descriptor.Equality
import Generics.Descriptor.Substitution
import Generics.Document
import Generics.Fault
import Generics.Hierarchy.Subclass
import Generics.Hierarchy.Supertype
import Generics.Identity
import Generics.Interner
import Generics.Key.Basic
import Generics.Key.Box
import Generics.Key.Capture
import Generics.Key.Registry
import Generics.Key.Specificity
import Generics.Key.Tag
import Generics.LogFormat
import Generics.Signature
import Generics.Store.Arity
import Generics.Store.Basic
import Generics.Store.Bindings
import Generics.Store.Text
import Generics.Text.Blank
import Generics.Proofs.Answers
import Generics.Proofs.Climbing
import Generics.Proofs.Visiting
import Generics.Proofs.Supertypes
import Generics.Proofs.Subclass
import Generics.Proofs.Histories
import Generics.Proofs.WellFormed
import Generics.Proofs.Mismatch
import Generics.Proofs.Sameness
import Generics.Proofs.Views
import Generics.Proofs.Covers
import Generics.Proofs.Regular
import Generics.Proofs.Composition
import Generics.Proofs.Decision
import Generics.Proofs.Faults
import Generics.Proofs.Testing
import Generics.Proofs.Casts
import Generics.Proofs.Specificity
import Generics.Proofs.Keys
import Generics.Proofs.Interchange
import Generics.Proofs.Upcasts
import Generics.Proofs.Interning
import Generics.Proofs.Lifetimes
import Generics.Proofs.BindingModes
import Generics.Proofs.Registrations
import Generics.Proofs.Digests
import Generics.Proofs.Tags
import Generics.Proofs.Texts
import Generics.Proofs.TextOrder
import Generics.Proofs.Registries
import Generics.Proofs.Atoms
import Generics.Proofs.Records
import Generics.Proofs.Parametric
import Generics.Proofs.Levels
import Generics.Proofs.Checkers
import Generics.Proofs.Variance
import Generics.Proofs.Receivers
import Generics.Proofs.Calls
import Generics.Proofs.Returns
import Generics.Proofs.Limits
import Generics.Proofs.Replacement
import Generics.Proofs.Slots
import Generics.Proofs.Completion
import Generics.Proofs.Trails
import Generics.Proofs.Naturality
import Generics.Proofs.Linearization
import Generics.Proofs.Provenance
import Generics.Proofs.Arguments
import Generics.Proofs.Room
import Generics.Proofs.Explanations
import Generics.Proofs.Visits
import Generics.Proofs.Reports
import Generics.Proofs.Appearance
