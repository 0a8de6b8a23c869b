import FieldTypes.Main
import FieldTypes.Proofs.Journal
import FieldTypes.Proofs.Descent
import FieldTypes.Proofs.Hops
import FieldTypes.Proofs.AliasChain
import FieldTypes.Proofs.Reaching
import FieldTypes.Proofs.Closure
import FieldTypes.Proofs.WorkList
import FieldTypes.Proofs.ModelClosure
import FieldTypes.Proofs.Session
import FieldTypes.Proofs.Emission
import FieldTypes.Proofs.Boxing
import FieldTypes.Proofs.Templates
import FieldTypes.Proofs.Destination
import FieldTypes.Proofs.SharedEntries
import FieldTypes.Proofs.Nesting
import FieldTypes.Proofs.ReadBack
import FieldTypes.Proofs.Decoding
import FieldTypes.Proofs.Describing
import FieldTypes.Proofs.Independence
import FieldTypes.Proofs.Respelling
import FieldTypes.Proofs.Prefetching
import FieldTypes.Proofs.Mounting
import FieldTypes.Proofs.Rendering
import FieldTypes.Proofs.Writing
import FieldTypes.Proofs.Footprint
import FieldTypes.Proofs.DescriptionText
import FieldTypes.Proofs.Warnings
import FieldTypes.Proofs.CachedLoading
import FieldTypes.Proofs.Faults
import FieldTypes.Proofs.ConsultedKeys
import FieldTypes.Proofs.Unambiguous
import FieldTypes.Proofs.WireKeys
import FieldTypes.Proofs.FieldLines
import FieldTypes.Proofs.Newlines
import FieldTypes.Proofs.Redirection
import FieldTypes.Proofs.Locating
