import ScopeResolution.Proofs.Agreement
import ScopeResolution.Proofs.Composition
import ScopeResolution.Proofs.Construction.Changes
import ScopeResolution.Proofs.Datum.Congruence
import ScopeResolution.Proofs.Issuance
import ScopeResolution.Proofs.Legibility
import ScopeResolution.Proofs.Names.Untied
import ScopeResolution.Proofs.Phrase.Grafted
import ScopeResolution.Proofs.Scoping.Equivariance
import ScopeResolution.Proofs.Scoping.Repetition
