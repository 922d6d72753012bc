import DocTables.Main
import DocTables.Proofs.Failures
import DocTables.Proofs.UniqueScript
import DocTables.Proofs.Revisions
import DocTables.Proofs.Publishing
import DocTables.Proofs.Submissions
import DocTables.Proofs.Layout
import DocTables.Proofs.PlainNames
import DocTables.Proofs.QuotedNames
import DocTables.Proofs.SchemaNames
import DocTables.Proofs.NameLengths
import DocTables.Proofs.Permanence
import DocTables.Proofs.Isolation
import DocTables.Proofs.Sessions
import DocTables.Proofs.ShownDocuments
import DocTables.Proofs.Cycles
import DocTables.Proofs.ForeignItems
import DocTables.Proofs.ShortNames
import DocTables.Proofs.FailedCommands
import DocTables.Proofs.TableFaults
import DocTables.Proofs.JsonGrammar
import DocTables.Proofs.JsonPresentation
import DocTables.Proofs.RegistryViews
import DocTables.Proofs.Shortening
import DocTables.Proofs.PlacingLoop
