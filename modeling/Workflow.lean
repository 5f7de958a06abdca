import Workflow.Document.Printer
import Workflow.Edit.Report
import Workflow.Edit.Request
import Workflow.Engine.Move
import Workflow.Findings
import Workflow.Flow.Modify
import Workflow.Flow.Siblings
import Workflow.Json.Printer
import Workflow.Main
import Workflow.Proofs.Deadlines
import Workflow.Proofs.Document.Grammar
import Workflow.Proofs.Edit.Canon
import Workflow.Proofs.Edit.Milestones
import Workflow.Proofs.Edit.Overlay
import Workflow.Proofs.Edit.Patch
import Workflow.Proofs.Joins.History
import Workflow.Proofs.Limit
import Workflow.Proofs.Live.Activated
import Workflow.Proofs.Live.Timers
import Workflow.Proofs.Live.Undisturbed
import Workflow.Proofs.Membership
import Workflow.Proofs.Records
import Workflow.Proofs.Returns
import Workflow.Proofs.Revision
import Workflow.Proofs.Rules
import Workflow.Proofs.ScopeTermination
import Workflow.Proofs.Selection
import Workflow.Proofs.Server.Apart
import Workflow.Proofs.Server.Lineage
import Workflow.Proofs.Tally
import Workflow.Proofs.Traversal
import Workflow.Server.Flows
import Workflow.Server.Runs
import Workflow.Store
import Workflow.Uuid
