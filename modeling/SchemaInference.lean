import SchemaInference.Main
import SchemaInference.Proofs.CandidateUnions
import SchemaInference.Proofs.Components
import SchemaInference.Proofs.DepthLimits
import SchemaInference.Proofs.FailurePlaces
import SchemaInference.Proofs.Homogeneous
import SchemaInference.Proofs.Isolation
import SchemaInference.Proofs.KeyOrder
import SchemaInference.Proofs.LenientInference
import SchemaInference.Proofs.MergeableTypes
import SchemaInference.Proofs.MessageValues
import SchemaInference.Proofs.Principal
import SchemaInference.Proofs.RoundTrip
import SchemaInference.Proofs.ShapeClasses
import SchemaInference.Proofs.Soundness
import SchemaInference.Proofs.StableMajorities
import SchemaInference.Proofs.Stoppages
import SchemaInference.Proofs.WidthVariants
