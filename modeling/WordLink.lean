import WordLink.Memory.Lemmas
import WordLink.Session
import WordLink.Text.Quoted
import WordLink.Text.Utf8
import WordLink.Proofs.SyncRun
import WordLink.Proofs.Bookkeeping
import WordLink.Proofs.Resynchronization
import WordLink.Proofs.Grammar
import WordLink.Proofs.BlockDecoding
import WordLink.Proofs.SpanLayout
import WordLink.Proofs.UpdateContent
import WordLink.Proofs.RoundTrip
import WordLink.Proofs.ClosedUpdate
import WordLink.Proofs.MarkerBlock
import WordLink.Proofs.LateJoin
import WordLink.Proofs.BlockLayout
import WordLink.Proofs.Refresh
import WordLink.Proofs.Connection
import WordLink.Proofs.Slip
import WordLink.Proofs.Continuity
import WordLink.Proofs.FirstWord
import WordLink.Proofs.Divergence
import WordLink.Proofs.SyncGroups
import WordLink.Proofs.EndOfUpdate
import WordLink.Proofs.Trace
import WordLink.Proofs.Registrations
import WordLink.Proofs.Mounts
import WordLink.Proofs.Effects
import WordLink.Proofs.Course
import WordLink.Proofs.PanelOrder
import WordLink.Proofs.Hearing
import WordLink.Proofs.Onward
import WordLink.Proofs.Agreement
import WordLink.Proofs.Feeding
import WordLink.Proofs.LiveGauges
import WordLink.Proofs.Delivery
import WordLink.Proofs.Contents
import WordLink.Proofs.Frames
import WordLink.Proofs.Identity
import WordLink.Proofs.Fitting
import WordLink.Proofs.Ownership
import WordLink.Proofs.UpdateEffect
import WordLink.Proofs.BlockSequences
import WordLink.Proofs.TextStorage
import WordLink.Proofs.SilentCourse
import WordLink.Proofs.Publication
import WordLink.Proofs.IntegerStorage
import WordLink.Proofs.JsonText
import WordLink.Proofs.JsonReading
import WordLink.Proofs.JsonRecords
import WordLink.Proofs.FieldDefinitions
