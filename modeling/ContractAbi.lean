import ContractAbi.Interface
import ContractAbi.Proofs.Layout
import ContractAbi.Descriptor.Object
import ContractAbi.Walk.Deferred
import ContractAbi.Proofs.Reading
import ContractAbi.Proofs.Groups
import ContractAbi.Proofs.Grammar
import ContractAbi.Proofs.Parameter
import ContractAbi.Proofs.Clauses
import ContractAbi.Proofs.Lexing
import ContractAbi.Proofs.Declaration
import ContractAbi.Proofs.Signature
import ContractAbi.Proofs.Spelling
import ContractAbi.Proofs.Printing
import ContractAbi.Proofs.TypeText
import ContractAbi.Proofs.Document
import ContractAbi.Proofs.Links
import ContractAbi.Proofs.Stretch
import ContractAbi.Proofs.Extraction
import ContractAbi.Proofs.Canonical
import ContractAbi.Proofs.Flags
import ContractAbi.Proofs.Shape
import ContractAbi.Proofs.Deferral
import ContractAbi.Proofs.Descriptor
import ContractAbi.Proofs.Names
import ContractAbi.Proofs.Acceptance
import ContractAbi.Proofs.Spacing
import ContractAbi.Cursor.Session
import ContractAbi.Proofs.Session
import ContractAbi.Proofs.Lines
import ContractAbi.Proofs.JsonText
import ContractAbi.Proofs.TupleDepth
import ContractAbi.Proofs.Lookup
import ContractAbi.Proofs.Traversal
import ContractAbi.Proofs.Keyed
import ContractAbi.Proofs.TypeReading
import ContractAbi.Proofs.StoredText
import ContractAbi.Proofs.Fallback
import ContractAbi.Proofs.ElementaryNames
import ContractAbi.Proofs.Conversion
import ContractAbi.Proofs.LexicalErrors
import ContractAbi.Proofs.JsonReader
import ContractAbi.Proofs.GasNotation
