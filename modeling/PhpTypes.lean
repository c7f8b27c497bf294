import PhpTypes.Main
import PhpTypes.Proofs.ArrayLiterals
import PhpTypes.Proofs.ArrayPlaces
import PhpTypes.Proofs.BoundVariables
import PhpTypes.Proofs.Branchings
import PhpTypes.Proofs.ClassAnalysis
import PhpTypes.Proofs.ClauseNames
import PhpTypes.Proofs.CommentTokens
import PhpTypes.Proofs.ComponentNames
import PhpTypes.Proofs.Coverage
import PhpTypes.Proofs.DeclaredNames
import PhpTypes.Proofs.EntryNumbers
import PhpTypes.Proofs.Escapes
import PhpTypes.Proofs.ExprReadings
import PhpTypes.Proofs.FrameLaw
import PhpTypes.Proofs.FunctionCalls
import PhpTypes.Proofs.IntegerFolding
import PhpTypes.Proofs.Interpolation
import PhpTypes.Proofs.Lifecycle
import PhpTypes.Proofs.LineageOrder
import PhpTypes.Proofs.LiteralTexts
import PhpTypes.Proofs.MethodLookup
import PhpTypes.Proofs.NativeHints
import PhpTypes.Proofs.ObjectSchemas
import PhpTypes.Proofs.ParameterTags
import PhpTypes.Proofs.PropertyTypes
import PhpTypes.Proofs.Reachability
import PhpTypes.Proofs.Registration
import PhpTypes.Proofs.SchemaDocuments
import PhpTypes.Proofs.SchemaReferences
import PhpTypes.Proofs.Transparency
import PhpTypes.Proofs.TypeHashes
import PhpTypes.Proofs.TypeTexts
import PhpTypes.Proofs.Widening
import PhpTypes.Survey
