import MipsListing.Main
import MipsListing.Proofs.Rerun
import MipsListing.Proofs.ObjectText
import MipsListing.Proofs.Acceptance
import MipsListing.Proofs.References
import MipsListing.Proofs.Visibility
import MipsListing.Proofs.Outcome
import MipsListing.Proofs.Safety
import MipsListing.Proofs.Joining
import MipsListing.Proofs.Report
import MipsListing.Proofs.ObjectGrammar
import MipsListing.Proofs.JsonForms
import MipsListing.Proofs.OutputModes
import MipsListing.Proofs.Conversion
import MipsListing.Proofs.Packing
import MipsListing.Proofs.Mnemonic
import MipsListing.Proofs.SignedField
import MipsListing.Proofs.Slice
import MipsListing.Proofs.DerivedPath
import MipsListing.Proofs.LabelOrder
