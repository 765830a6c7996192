import Listing.Main
import Listing.Proofs.Entities
import Listing.Proofs.Lines
import Listing.Proofs.Partition
import Listing.Proofs.Lexemes
import Listing.Proofs.Shown
import Listing.Proofs.Markup
import Listing.Proofs.Page
import Listing.Proofs.Preservation
import Listing.Proofs.Edges
import Listing.Proofs.Numbering
import Listing.Proofs.Contents
import Listing.Proofs.Labels
import Listing.Proofs.Comparison
import Listing.Proofs.Extract
import Listing.Proofs.Lookahead
import Listing.Proofs.Regions
import Listing.Proofs.Joined
import Listing.Proofs.Bytes.Scanner
import Listing.Proofs.Bytes.Encoding
import Listing.Proofs.Bytes.Tokens
import Listing.Proofs.Bytes.Bodies
import Listing.Proofs.Bytes.Program
import Listing.Proofs.Bytes.Nesting
import Listing.Proofs.Bytes.Agreement
import Listing.Proofs.Modes
import Listing.Proofs.Newlines
import Listing.Proofs.Recovery
import Listing.Proofs.Openers
import Listing.Proofs.Endings
import Listing.Proofs.Bytes.Endings
import Listing.Proofs.Braces
import Listing.Proofs.Heredocs
import Listing.Proofs.Shapes
import Listing.Proofs.Halt
import Listing.Proofs.Words
import Listing.Proofs.Runs
import Listing.Proofs.Integers
import Listing.Proofs.Elements
import Listing.Proofs.Overflow
import Listing.Proofs.Cuts
import Listing.Proofs.Positions
import Listing.Proofs.Roles
import Listing.Proofs.Recent
import Listing.Proofs.Taken
